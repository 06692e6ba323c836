import Reckon.Proofs.LongSources
import Reckon.Proofs.Lookahead
import Reckon.Proofs.MoreRoom

/-!
Where a syntax error stands. The tokens before a refused one can be continued to a sentence, and as
other tokens after it would not change the refusal, with it they cannot, however many levels the
parser is given.
-/

namespace Reckon
namespace Grammar

section
variable {α : Type} {t : Token} {more more' : List Token}

/-- What is left unread does not change. -/
theorem Follows.of_read {a : α} {y : Except Refusal (α × List Token)}
    (h : Follows t more more' (.ok (a, t :: more)) y) : y = .ok (a, t :: more') := by
  generalize read : (Except.ok (a, t :: more) : Except Refusal (α × List Token)) = x at h
  cases h with
  | read b left =>
    obtain ⟨rfl, same⟩ := Prod.mk.inj (Except.ok.inj read)
    obtain rfl := List.self_eq_append_left.1 same
    rfl
  | refused => cases read
  | past h =>
    subst read
    exact absurd h (Nat.not_succ_le_self _)

theorem Follows.of_refused {expected : String} {y : Except Refusal (α × List Token)}
    (h : Follows t more more' (.error (.unexpected expected (t :: more))) y) :
    y = .error (.unexpected expected (t :: more')) := by
  generalize refused :
    (Except.error (.unexpected expected (t :: more)) : Except Refusal (α × List Token)) = x at h
  cases h with
  | read => cases refused
  | refused _ left =>
    obtain ⟨rfl, same⟩ := Refusal.unexpected.inj (Except.error.inj refused)
    obtain rfl := List.self_eq_append_left.1 same
    rfl
  | past h =>
    subst refused
    exact absurd h (Nat.not_succ_le_self _)

end

section
variable {start : Start} {limit size : Nat} {toks used more more' : List Token} {t : Token}
  {expected : String} {r : Refusal} {span : Span}

theorem Refusal.of_unexpectedToken {found : TokenKind}
    (h : r.toError limit size = .unexpectedToken found expected span) :
    ∃ t after, r = .unexpected expected (t :: after) ∧ t.kind = found ∧ t.span = span := by
  match r, h with
  | .unexpected _ (t :: after), rfl => exact ⟨t, after, rfl, rfl, rfl⟩
  | .unexpected _ [], h | .tooDeep [], h | .tooDeep (_ :: _), h => cases h

theorem Refusal.of_unexpectedEnd (h : r.toError limit size = .unexpectedEnd expected span) :
    r = .unexpected expected [] ∧ span = .point size := by
  match r, h with
  | .unexpected _ [], rfl => exact ⟨rfl, rfl⟩
  | .unexpected _ (_ :: _), h | .tooDeep [], h | .tooDeep (_ :: _), h => cases h

/-- Other tokens after a refused one change nothing. -/
theorem parseTokens_refused
    (h : parseTokens start limit (used ++ t :: more) = .error (.unexpected expected (t :: more))) :
    parseTokens start limit (used ++ t :: more') =
      .error (.unexpected expected (t :: more')) := by
  have reads := start.parser_local (atomUpTo_sound limit) (atomUpTo_stops limit)
    (atomUpTo_local limit) limit used t more more'
  obtain refused | ⟨⟨u, rest⟩, read, tail⟩ := bind_eq_error.1 h
  · rw [refused] at reads
    rw [parseTokens, reads.of_refused]
    rfl
  · cases rest with
    | nil => cases tail
    | cons r rest =>
      cases tail
      rw [read] at reads
      rw [parseTokens, reads.of_read]
      rfl

/-- No limit makes up for a refused token, or for a refused end. -/
theorem not_derives_of_refused {ahead : List Token} {u : Tree}
    (h : parseTokens start limit toks = .error (.unexpected expected ahead)) :
    ¬Derives start.rule toks u := by
  intro derived
  have read := parseTokens_eq_ok_iff.2 ⟨derived, Nat.le_max_right limit u.cost⟩
  have same : SameUnless Refusal.isDepth (parseTokens start limit toks)
      (parseTokens start (max limit u.cost) toks) := parseTokens_extends (Nat.le_max_left _ _)
  rw [h, read] at same
  cases same.eq fun e eq => by cases eq; rfl

theorem not_viable_of_refused
    (h : parseTokens start limit (used ++ t :: more) = .error (.unexpected expected (t :: more))) :
    ¬Viable start.rule (used ++ [t]) := by
  rintro ⟨more', u, derived⟩
  rw [List.append_assoc] at derived
  exact not_derives_of_refused (parseTokens_refused h) derived

end

end Grammar

open Grammar

/-- A syntax error stands at the first token that no continuation can mend: the tokens before it
begin a sentence of the starting rule, and with it they begin none. If the end of the source is what
is unexpected, all tokens together begin a sentence but are none. The end is where the source ends,
or the largest offset if that is before it. -/
theorem syntax_error_at_first_fault (source : String) (start : Start) (limit : Nat)
    (toks : List Token) (scanned : Token.scan source = .ok toks) :
    (∀ found expected span,
      parse source start limit = .error (.unexpectedToken found expected span) →
      ∃ before t after, toks = before ++ t :: after ∧ t.kind = found ∧ t.span = span ∧
        Viable start.rule before ∧ ¬Viable start.rule (before ++ [t])) ∧
    ∀ expected span, parse source start limit = .error (.unexpectedEnd expected span) →
      span = .point source.utf8ByteSize ∧
      (source.utf8ByteSize ≤ Span.maxOffset →
        span = ⟨source.utf8ByteSize, source.utf8ByteSize⟩) ∧
      Viable start.rule toks ∧ ∀ t, ¬Derives start.rule toks t := by
  have refusal {e : SyntaxError} (failed : parse source start limit = .error e) :
      ∃ r, parseTokens start limit toks = .error r ∧
        r.toError limit source.utf8ByteSize = e := by
    rw [parse, scanned, ok_bind] at failed
    exact mapError_eq_error.1 failed
  constructor
  · intro found expected span failed
    obtain ⟨r, refused, error⟩ := refusal failed
    obtain ⟨t, after, rfl, rfl, rfl⟩ := Refusal.of_unexpectedToken error
    obtain ⟨before, rfl, viable⟩ := viable_of_parseTokens refused
    exact ⟨before, t, after, rfl, rfl, rfl, viable, not_viable_of_refused refused⟩
  · intro expected span failed
    obtain ⟨r, refused, error⟩ := refusal failed
    obtain ⟨rfl, rfl⟩ := Refusal.of_unexpectedEnd error
    obtain ⟨before, same, viable⟩ := viable_of_parseTokens refused
    rw [List.append_nil] at same
    subst same
    refine ⟨rfl, fun small => ?_, viable, fun t => not_derives_of_refused refused⟩
    rw [Span.point, Span.ofRange, Nat.min_eq_left small]

/-- Comparisons do not chain, and a bracket has to be closed. -/
theorem syntax_error_at_second_relation :
    (∃ toks before t after, Token.scan "1 < 2 < 3" = .ok toks ∧
      parse "1 < 2 < 3" .expression 9 =
        .error (.unexpectedToken (.relation .less) "end of input" ⟨6, 7⟩) ∧
      toks = before ++ t :: after ∧ t.kind = .relation .less ∧ t.span = ⟨6, 7⟩ ∧
      Viable .logicExpr before ∧ ¬Viable .logicExpr (before ++ [t])) ∧
    ∃ toks, Token.scan "(1" = .ok toks ∧
      parse "(1" .arith 9 = .error (.unexpectedEnd "`)`" ⟨2, 2⟩) ∧
      Viable .arithExpr toks ∧ ∀ t, ¬Derives .arithExpr toks t := by
  constructor
  · obtain ⟨before, t, after, place⟩ :=
      (syntax_error_at_first_fault "1 < 2 < 3" .expression 9 _ rfl).1 _ _ _ rfl
    exact ⟨_, before, t, after, rfl, rfl, place⟩
  · obtain ⟨_, _, viable, none⟩ := (syntax_error_at_first_fault "(1" .arith 9 _ rfl).2 _ _ rfl
    exact ⟨_, rfl, rfl, viable, none⟩

/-- A source that ends beyond the largest offset ends behind the place of the error. -/
theorem unexpected_end_before_end :
    ∃ expected span, parse (Token.spaces 4294967296 ++ "1+") .expression 3 =
        .error (.unexpectedEnd expected span) ∧
      span.stop < (Token.spaces 4294967296 ++ "1+").utf8ByteSize := by
  have alone : Token.scan "1+" = .ok [⟨.int, "1", ⟨0, 1⟩⟩, ⟨.plus, "+", ⟨1, 2⟩⟩] := rfl
  have size : (Token.spaces 4294967296 ++ "1+").utf8ByteSize = 4294967298 := by
    rw [String.utf8ByteSize_append, Token.spaces, Token.utf8ByteSize_replicate rfl]
    rfl
  rw [parse, Token.scan_far (by decide) alone, size]
  exact ⟨_, _, rfl, by decide⟩

end Reckon
