import Reckon.Proofs.Leaves
import Reckon.Proofs.ParserCompleteness
import Reckon.Proofs.SourceText

/-!
The parser accepts exactly its grammar. A source text that has tokens is read from a starting rule,
under some limit, precisely when the grammar derives the tokens from that rule, and what is read is
the derivation.
-/

namespace Reckon

open Grammar

section
variable {source : String} {start : Start} {limit : Nat} {toks : List Token} {t : Tree}

theorem parse_eq_ok_iff :
    parse source start limit = .ok t ↔
      ∃ toks, Token.scan source = .ok toks ∧ Derives start.rule toks t ∧ t.cost ≤ limit := by
  have tokens (toks : List Token) :
      (parseTokens start limit toks).mapError (·.toError limit source.utf8ByteSize) = .ok t ↔
        Derives start.rule toks t ∧ t.cost ≤ limit := by
    rw [← parseTokens_eq_ok_iff, mapError_eq_ok]
  rw [parse, bind_eq_ok]
  exact exists_congr fun toks => and_congr_right fun _ => tokens toks

theorem derives_of_parse (scanned : Token.scan source = .ok toks)
    (read : parse source start limit = .ok t) : Derives start.rule toks t := by
  obtain ⟨toks', scanned', derived, _⟩ := parse_eq_ok_iff.1 read
  obtain rfl := Except.ok.inj (scanned.symm.trans scanned')
  exact derived

/-- Two derivations of the same tokens are one, as each is what the parser returns. -/
theorem Grammar.Derives.unique {u : Tree} (ht : Derives start.rule toks t)
    (hu : Derives start.rule toks u) : t = u := by
  have readT := parseTokens_eq_ok_iff.2 ⟨ht, Nat.le_max_left t.cost u.cost⟩
  have readU := parseTokens_eq_ok_iff.2 ⟨hu, Nat.le_max_right t.cost u.cost⟩
  exact Except.ok.inj (readT.symm.trans readU)

end

/-- Reading is sound and complete for the grammar, and the grammar is unambiguous. Silent tokens
are part of a derivation; the terminals of the tree are the other tokens. The text of a token is what
the source holds at its span. -/
theorem parse_exact (start : Start) :
    (∀ (source : String) (toks : List Token), Token.scan source = .ok toks →
      (∀ t ∈ toks, t.span.Shows source t.text) ∧
      (∀ (limit : Nat) (t : Tree), parse source start limit = .ok t →
        Derives start.rule toks t ∧ t.leaves = toks.filterMap leaf?) ∧
      (∀ t : Tree, Derives start.rule toks t →
        ∃ enough, ∀ limit ≥ enough, parse source start limit = .ok t)) ∧
    ∀ (toks : List Token) (t u : Tree),
      Derives start.rule toks t → Derives start.rule toks u → t = u := by
  refine ⟨?_, fun toks t u ht hu => ht.unique hu⟩
  intro source toks scanned
  refine ⟨fun t mem => Token.shows_of_scan scanned mem, ?_, ?_⟩
  · intro limit t read
    obtain ⟨toks', scanned', derived, _⟩ := parse_eq_ok_iff.1 read
    obtain rfl := Except.ok.inj (scanned.symm.trans scanned')
    exact ⟨derived, derived.leaves_eq⟩
  · intro t derived
    refine ⟨t.cost, fun limit fits => ?_⟩
    exact parse_eq_ok_iff.2 ⟨toks, scanned, derived, fits⟩

theorem parse_exact_assignment :
    ∃ toks t, Token.scan "x = -a[1]\n" = .ok toks ∧
      (∀ t ∈ toks, t.span.Shows "x = -a[1]\n" t.text) ∧
      parse "x = -a[1]\n" .program 4 = .ok t ∧
      Derives .block toks t ∧ t.leaves = toks.filterMap leaf? := by
  obtain ⟨shows, sound, _⟩ := (parse_exact .program).1 "x = -a[1]\n" _ rfl
  exact ⟨_, _, rfl, shows, rfl, sound 4 _ rfl⟩

end Reckon
