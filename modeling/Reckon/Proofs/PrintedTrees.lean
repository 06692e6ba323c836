import Reckon.Proofs.Coverage
import Reckon.Proofs.Joining
import Reckon.Proofs.Layout
import Reckon.Proofs.Partings
import Reckon.Tree.Print

/-!
The indented form of a tree determines the tree. The form says neither of what kind a terminal is
nor whether a line is a terminal or a rule. The first is told by the text, which is of one kind
only. The second is told by the lines behind: every rule below the root has parts, and they stand
deeper than it, unless its only part is a terminal, which stands behind a tab.
-/

namespace Reckon

open Token Grammar

namespace Tree

/-- What stands on the line of the node. -/
def heading : Tree → List Char
  | .terminal _ text _ => text.toList
  | .rule name [.terminal _ text _] => name.toList ++ '\t' :: text.toList
  | .rule name _ => name.toList

/-- The parts that have lines of their own. -/
def listed : Tree → List Tree
  | .terminal .. | .rule _ [.terminal ..] => []
  | .rule _ parts => parts

/-- A line of the indented form: how deep it stands, and what stands on it. -/
@[ext] structure PrintedLine where
  level : Nat
  content : List Char

def PrintedLine.text (r : PrintedLine) : List Char :=
  List.replicate (2 * r.level) ' ' ++ (r.content ++ ['\n'])

mutual

/-- The lines of the tree at `level`. -/
def rows (level : Nat) : Tree → List PrintedLine
  | .terminal _ text _ => [⟨level, text.toList⟩]
  | .rule name [.terminal _ text _] => [⟨level, name.toList ++ '\t' :: text.toList⟩]
  | .rule name parts => ⟨level, name.toList⟩ :: rowsAll (level + 1) parts

def rowsAll (level : Nat) : List Tree → List PrintedLine
  | [] => []
  | t :: ts => rows level t ++ rowsAll level ts

end

theorem heading_label (r : Rule) (k : Terminal) (text : String) (span : Span) :
    (r.node [k.leaf text span]).heading = r.name.toList ++ '\t' :: text.toList := rfl

theorem unplaced_node (r : Rule) (parts : List Tree) :
    (r.node parts).unplaced = r.node (parts.map unplaced) :=
  move_node r parts

/-- The only part is a terminal, or the name is alone on the line of the rule. -/
theorem sole_or_alone (name : String) (parts : List Tree) :
    (∃ kind text span, parts = [.terminal kind text span]) ∨
      (rule name parts).heading = name.toList ∧ (rule name parts).listed = parts := by
  match parts with
  | [.terminal kind text span] => exact .inl ⟨kind, text, span, rfl⟩
  | [] | .rule .. :: _ | .terminal .. :: _ :: _ => exact .inr ⟨rfl, rfl⟩

theorem rows_eq (level : Nat) (t : Tree) :
    t.rows level = ⟨level, t.heading⟩ :: rowsAll (level + 1) t.listed := by
  match t with
  | .terminal .. | .rule _ [.terminal ..] => simp [rows, heading, listed, rowsAll]
  | .rule _ [] | .rule _ (.rule .. :: _) | .rule _ (.terminal .. :: _ :: _) =>
    simp [rows, heading, listed]

theorem rowsAll_eq_flatMap (level : Nat) (ts : List Tree) :
    rowsAll level ts = ts.flatMap (rows level) := by
  induction ts with
  | nil => rw [rowsAll, List.flatMap_nil]
  | cons t ts ih => rw [rowsAll, List.flatMap_cons, ih]

theorem linesOnto_eq (level : Nat) (t : Tree) (rest : List String) :
    t.linesOnto level rest =
      (indentation level ++ String.ofList t.heading ++ "\n") ::
        linesAllOnto (level + 1) t.listed rest := by
  match t with
  | .terminal .. => simp [linesOnto, heading, listed, linesAllOnto]
  | .rule _ [.terminal ..] => simp [linesOnto, heading, listed, linesAllOnto, String.append_assoc]
  | .rule _ [] | .rule _ (.rule .. :: _) | .rule _ (.terminal .. :: _ :: _) =>
    simp [linesOnto, heading, listed]

theorem toList_pushn (s : String) (c : Char) (n : Nat) :
    (s.pushn c n).toList = s.toList ++ List.replicate n c := by
  induction n with
  | zero => simp [String.pushn, Nat.repeat]
  | succ n ih =>
    rw [List.replicate_succ', ← List.append_assoc, ← ih, String.pushn, Nat.repeat,
      String.toList_push, String.pushn]

theorem toList_line (level : Nat) (content : List Char) :
    (indentation level ++ String.ofList content ++ "\n").toList =
      PrintedLine.text ⟨level, content⟩ := by
  simp [indentation, toList_pushn, PrintedLine.text]

theorem listed_sublist (t : Tree) : t.listed.Sublist t.children := by
  match t with
  | .terminal .. | .rule _ [.terminal ..] => exact List.nil_sublist _
  | .rule _ [] | .rule _ (.rule .. :: _) | .rule _ (.terminal .. :: _ :: _) =>
    exact List.Sublist.refl _

theorem flatMap_linesAllOnto {level : Nat} {ts : List Tree} {rest : List String}
    (h : ∀ t ∈ ts, ∀ level rest, (t.linesOnto level rest).flatMap String.toList =
      (t.rows level).flatMap PrintedLine.text ++ rest.flatMap String.toList) :
    (linesAllOnto level ts rest).flatMap String.toList =
      (rowsAll level ts).flatMap PrintedLine.text ++ rest.flatMap String.toList := by
  induction ts with
  | nil => simp [linesAllOnto, rowsAll]
  | cons t ts ih =>
    obtain ⟨head, tail⟩ := List.forall_mem_cons.1 h
    rw [linesAllOnto, rowsAll, head, ih tail, List.flatMap_append, List.append_assoc]

theorem flatMap_linesOnto (level : Nat) (t : Tree) (rest : List String) :
    (t.linesOnto level rest).flatMap String.toList =
      (t.rows level).flatMap PrintedLine.text ++ rest.flatMap String.toList := by
  induction t using Tree.induction generalizing level rest with
  | terminal kind text span => simp [linesOnto, rows, PrintedLine.text, indentation, toList_pushn]
  | rule name parts ih =>
    rw [linesOnto_eq, rows_eq, List.flatMap_cons, List.flatMap_cons, toList_line,
      flatMap_linesAllOnto, List.append_assoc]
    exact fun t mem => ih t ((listed_sublist (.rule name parts)).subset mem)

theorem heading_move (g : Span → Span) (t : Tree) : (t.move g).heading = t.heading := by
  match t with
  | .terminal .. | .rule _ [.terminal ..] => simp [heading]
  | .rule _ [] | .rule _ (.rule .. :: _) | .rule _ (.terminal .. :: _ :: _) => simp [heading]

theorem listed_move (g : Span → Span) (t : Tree) :
    (t.move g).listed = t.listed.map (move g) := by
  match t with
  | .terminal .. | .rule _ [.terminal ..] => simp [listed]
  | .rule _ [] | .rule _ (.rule .. :: _) | .rule _ (.terminal .. :: _ :: _) => simp [listed]

theorem rows_move (g : Span → Span) (level : Nat) (t : Tree) :
    (t.move g).rows level = t.rows level := by
  induction t using Tree.induction generalizing level with
  | terminal kind text span => simp [rows]
  | rule name parts ih =>
    rw [rows_eq, rows_eq, heading_move, listed_move, rowsAll_eq_flatMap, rowsAll_eq_flatMap,
      List.flatMap_map]
    congr 1
    refine List.flatMap_congr fun t mem => ?_
    exact ih t ((listed_sublist (.rule name parts)).subset mem) (level + 1)

theorem toList_pretty (t : Tree) : t.pretty.toList = (t.rows 0).flatMap PrintedLine.text := by
  rw [pretty, String.toList_join, flatMap_linesOnto, List.flatMap_nil, List.append_nil]

theorem pretty_unplaced (t : Tree) : t.unplaced.pretty = t.pretty := by
  rw [← String.toList_inj, toList_pretty, toList_pretty, unplaced, rows_move]

end Tree

/-- What lines are laid out with. -/
def gaps : List Char := [' ', '\t', '\n']

/-- Some characters, and none that lines are laid out with. -/
def IsSolid (cs : List Char) : Prop := cs ≠ [] ∧ ∀ c ∈ cs, c ∉ gaps

theorem not_gap_of_textual {c : Char} (h : c.isAlphanum = true ∨ c ∈ numberMarks) : c ∉ gaps := by
  intro gap
  simp only [gaps, List.mem_cons, List.not_mem_nil, or_false] at gap
  rcases gap with rfl | rfl | rfl <;> exact absurd h (by decide)

namespace Grammar

theorem Terminal.isSolid {k : Terminal} {text : List Char} (h : Spells k.kind text) :
    IsSolid text :=
  ⟨h.ne_nil, fun c mem => not_gap_of_textual (h.textual c mem)⟩

theorem Rule.name_isSolid (r : Rule) : IsSolid r.name.toList := by
  have all : Rule.all.all fun r => r.name ≠ "" ∧ r.name.toList.all (· ∉ gaps) := by
    decide +kernel
  have own := List.all_eq_true.1 all r r.mem_all
  simpa [IsSolid] using own

end Grammar

namespace Tree

/-- What stands on the line begins with another character than a space, and is one line. -/
structure PrintedLine.IsLegible (r : PrintedLine) : Prop where
  shown : ∀ rest, ∀ c ∈ (r.content ++ rest).head?, (c == ' ') = false
  unbroken : ∀ c ∈ r.content, (c != '\n') = true

theorem PrintedLine.isLegible_of_front {level : Nat} {cs ds : List Char} (solid : IsSolid cs)
    (unbroken : ∀ d ∈ ds, (d != '\n') = true) : IsLegible ⟨level, cs ++ ds⟩ := by
  refine ⟨?_, List.forall_mem_append.2 ⟨?_, unbroken⟩⟩
  · intro rest c mem
    obtain ⟨some, all⟩ := solid
    cases cs with
    | nil => exact absurd rfl some
    | cons d cs =>
      obtain rfl : d = c := by simpa using mem
      simpa using fun space : d = ' ' => all d (List.mem_cons_self ..) (by simp [gaps, space])
  · intro c mem
    simpa using fun newline : c = '\n' => solid.2 c mem (by simp [gaps, newline])

theorem PrintedLine.isLegible_of_isSolid {level : Nat} {cs : List Char} (solid : IsSolid cs) :
    IsLegible ⟨level, cs⟩ := by
  rw [← List.append_nil cs]
  exact isLegible_of_front solid nofun

/-- The first of some lines can be told from their text. -/
theorem PrintedLine.eq_of_text_append {r r' : PrintedLine} {rest rest' : List Char}
    (legible : r.IsLegible) (legible' : r'.IsLegible)
    (same : r.text ++ rest = r'.text ++ rest') :
    r = r' ∧ rest = rest' := by
  have spaces (n : Nat) : ∀ c ∈ List.replicate n ' ', (c == ' ') = true := by
    intro c mem
    rw [List.eq_of_mem_replicate mem]
    rfl
  have ends (rest : List Char) : ∀ c ∈ ('\n' :: rest).head?, (c != '\n') = false := by
    intro c mem
    cases mem
    rfl
  simp only [text, List.append_assoc, List.singleton_append] at same
  obtain ⟨indented, lines⟩ := row_unique (spaces _) (spaces _) (legible.shown _) (legible'.shown _)
    same
  obtain ⟨content, behind⟩ := row_unique legible.unbroken legible'.unbroken (ends _) (ends _) lines
  have level : r.level = r'.level := by
    have length := congrArg List.length indented
    simp only [List.length_replicate] at length
    omega
  exact ⟨PrintedLine.ext level content, List.tail_eq_of_cons_eq behind⟩

theorem PrintedLine.eq_of_flatMap_text {rows rows' : List PrintedLine}
    (legible : ∀ r ∈ rows, r.IsLegible) (legible' : ∀ r ∈ rows', r.IsLegible)
    (same : rows.flatMap text = rows'.flatMap text) : rows = rows' := by
  have some (r : PrintedLine) (rest : List Char) : r.text ++ rest ≠ [] := by simp [text]
  induction rows generalizing rows' with
  | nil =>
    cases rows' with
    | nil => rfl
    | cons r' rows' => exact absurd same.symm (some r' _)
  | cons r rows ih =>
    cases rows' with
    | nil => exact absurd same (some r _)
    | cons r' rows' =>
      obtain ⟨head, tail⟩ := List.forall_mem_cons.1 legible
      obtain ⟨head', tail'⟩ := List.forall_mem_cons.1 legible'
      obtain ⟨first, others⟩ := eq_of_text_append head head' same
      rw [first, ih tail tail' others]

/-- Terminals are spelled as their kinds are, and rules have parts, by themselves on the line of the
rule or on lines of their own. -/
inductive IsFull : Tree → Prop where
  | leaf {k : Terminal} {text : String} {span : Span} (spelled : Spells k.kind text.toList) :
      IsFull (k.leaf text span)
  | label {r : Rule} {k : Terminal} {text : String} {span : Span}
      (spelled : Spells k.kind text.toList) : IsFull (r.node [k.leaf text span])
  | branch {r : Rule} {parts : List Tree} (some : parts ≠ [])
      (heading : (r.node parts).heading = r.name.toList) (listed : (r.node parts).listed = parts)
      (all : ∀ t ∈ parts, IsFull t) : IsFull (r.node parts)

namespace IsFull

variable {t t' : Tree}

theorem node {r : Rule} {parts : List Tree} (some : parts ≠ []) (all : ∀ t ∈ parts, IsFull t) :
    IsFull (r.node parts) := by
  rcases sole_or_alone r.name parts with ⟨kind, text, span, rfl⟩ | ⟨heading, listed⟩
  · have sole := all _ (List.mem_singleton.2 rfl)
    cases sole with
    | leaf spelled => exact .label spelled
  · exact .branch some heading listed all

theorem token {k : Terminal} {l : Token} (kind : l.kind = k.kind)
    (spelled : Spells l.kind l.text.toList) : IsFull (k.leaf l.text l.span) :=
  .leaf (kind ▸ spelled)

theorem of_listed (h : t.IsFull) : ∀ u ∈ t.listed, u.IsFull := by
  cases h with
  | leaf _ | label _ => exact nofun
  | branch _ _ listed all =>
    rw [listed]
    exact all

/-- Induction along the lines. -/
theorem listed_induction {P : Tree → Prop}
    (step : ∀ {t : Tree}, t.IsFull → (∀ u ∈ t.listed, P u) → P t) (h : t.IsFull) : P t := by
  induction h with
  | leaf spelled => exact step (.leaf spelled) nofun
  | label spelled => exact step (.label spelled) nofun
  | branch some heading listed all ih =>
    refine step (.branch some heading listed all) ?_
    rw [listed]
    exact ih

theorem unplaced_leaf_eq {k k' : Terminal} {text text' : String} {span span' : Span}
    (spelled : Spells k.kind text.toList) (spelled' : Spells k'.kind text'.toList)
    (same : text.toList = text'.toList) :
    (k.leaf text span).unplaced = (k'.leaf text' span').unplaced := by
  obtain rfl := String.toList_inj.1 same
  obtain rfl := Terminal.kind_injective (spelled.kind_unique spelled')
  rw [unplaced, unplaced, move_leaf, move_leaf]

theorem heading_isLegible {level : Nat} (h : t.IsFull) :
    PrintedLine.IsLegible ⟨level, t.heading⟩ := by
  cases h with
  | leaf spelled => exact PrintedLine.isLegible_of_isSolid (Terminal.isSolid spelled)
  | label spelled =>
    refine PrintedLine.isLegible_of_front (Rule.name_isSolid _) (List.forall_mem_cons.2 ⟨rfl, ?_⟩)
    intro c mem
    simpa using fun newline : c = '\n' =>
      (Terminal.isSolid spelled).2 c mem (by simp [gaps, newline])
  | branch _ heading _ _ =>
    rw [heading]
    exact PrintedLine.isLegible_of_isSolid (Rule.name_isSolid _)

theorem isLegible {level : Nat} (h : t.IsFull) : ∀ r ∈ t.rows level, r.IsLegible := by
  refine h.listed_induction (P := fun t => ∀ level, ∀ r ∈ t.rows level, r.IsLegible) ?_ level
  intro t full below level
  rw [rows_eq, rowsAll_eq_flatMap]
  refine List.forall_mem_cons.2 ⟨full.heading_isLegible, fun r mem => ?_⟩
  obtain ⟨u, among, mem⟩ := List.mem_flatMap.1 mem
  exact below u among _ r mem

/-- A full tree is known by what stands on its line and by the parts with lines of their own. -/
theorem unplaced_eq (h : t.IsFull) (h' : t'.IsFull) (heading : t.heading = t'.heading)
    (listed : t.listed.map unplaced = t'.listed.map unplaced) : t.unplaced = t'.unplaced := by
  have plain {cs : List Char} (solid : IsSolid cs) : '\t' ∉ cs := fun mem =>
    solid.2 _ mem (by decide)
  have labelled {r : Rule} {k : Terminal} {text : String} {span : Span} {cs : List Char}
      (same : (r.node [k.leaf text span]).heading = cs) : '\t' ∈ cs := by
    rw [← same, heading_label]
    simp
  cases h with
  | leaf spelled =>
    cases h' with
    | leaf spelled' => exact unplaced_leaf_eq spelled spelled' heading
    | label _ => exact absurd (labelled heading.symm) (plain (Terminal.isSolid spelled))
    | branch some' _ listed' _ =>
      rw [listed'] at listed
      exact absurd (List.map_eq_nil_iff.1 listed.symm) some'
  | label spelled =>
    cases h' with
    | leaf spelled' => exact absurd (labelled heading) (plain (Terminal.isSolid spelled'))
    | label spelled' =>
      rw [heading_label, heading_label, List.append_cons_inj_of_notMem (plain (Rule.name_isSolid _))
        (plain (Terminal.isSolid spelled))] at heading
      rw [unplaced_node, unplaced_node, List.map_singleton, List.map_singleton,
        unplaced_leaf_eq spelled spelled' heading.2.2, Rule.node, Rule.node,
        String.toList_inj.1 heading.1]
    | branch _ alone _ _ =>
      exact absurd (labelled (heading.trans alone)) (plain (Rule.name_isSolid _))
  | branch some alone own _ =>
    cases h' with
    | leaf _ =>
      rw [own] at listed
      exact absurd (List.map_eq_nil_iff.1 listed) some
    | label _ => exact absurd (labelled (heading.symm.trans alone)) (plain (Rule.name_isSolid _))
    | branch _ alone' own' _ =>
      rw [alone, alone', String.toList_inj] at heading
      rw [own, own'] at listed
      rw [unplaced_node, unplaced_node, listed, Rule.node, Rule.node, heading]

end IsFull

/-- The next line is not deeper than `level`. -/
def Returns (level : Nat) (rest : List PrintedLine) : Prop := ∀ r ∈ rest.head?, r.level ≤ level

/-- The tree can be told from its lines, whatever comes behind them. -/
def IsTold (t : Tree) : Prop :=
  ∀ ⦃t' : Tree⦄ ⦃level : Nat⦄ ⦃rest rest' : List PrintedLine⦄, t'.IsFull → Returns level rest →
    Returns level rest' → t.rows level ++ rest = t'.rows level ++ rest' →
    t.unplaced = t'.unplaced ∧ rest = rest'

section
variable {level : Nat} {rest rest' : List PrintedLine} {t : Tree} {ts ts' : List Tree}

theorem Returns.before (h : Returns level rest) :
    Returns (level + 1) (rowsAll (level + 1) ts ++ rest) := by
  cases ts with
  | nil =>
    simp only [rowsAll, List.nil_append]
    exact fun r mem => Nat.le_succ_of_le (h r mem)
  | cons t ts =>
    intro r mem
    simp only [rowsAll, rows_eq, List.cons_append, List.head?_cons, Option.mem_some_iff] at mem
    exact Nat.le_of_eq (congrArg PrintedLine.level mem).symm

theorem Returns.ne_rowsAll (h : Returns level rest) (behind : List PrintedLine) :
    rest ≠ rowsAll (level + 1) (t :: ts) ++ behind := by
  rintro rfl
  have deeper := h ⟨level + 1, t.heading⟩ (by simp [rowsAll, rows_eq])
  exact Nat.not_succ_le_self _ deeper

/-- A row of trees ends where the next line is less deep. -/
theorem rowsAll_told (told : ∀ t ∈ ts, t.IsTold) (full : ∀ t ∈ ts', t.IsFull)
    (h : Returns level rest) (h' : Returns level rest')
    (same : rowsAll (level + 1) ts ++ rest = rowsAll (level + 1) ts' ++ rest') :
    ts.map unplaced = ts'.map unplaced ∧ rest = rest' := by
  induction ts generalizing ts' with
  | nil =>
    cases ts' with
    | nil => exact ⟨rfl, by simpa [rowsAll] using same⟩
    | cons t' ts' => exact absurd same (h.ne_rowsAll _)
  | cons t ts ih =>
    cases ts' with
    | nil => exact absurd same.symm (h'.ne_rowsAll _)
    | cons t' ts' =>
      obtain ⟨head, tail⟩ := List.forall_mem_cons.1 told
      obtain ⟨head', tail'⟩ := List.forall_mem_cons.1 full
      rw [rowsAll, rowsAll, List.append_assoc, List.append_assoc] at same
      obtain ⟨first, same⟩ := head head' h.before h'.before same
      obtain ⟨others, same⟩ := ih tail tail' same
      exact ⟨by rw [List.map_cons, List.map_cons, first, others], same⟩

theorem IsFull.isTold (h : t.IsFull) : t.IsTold := by
  refine h.listed_induction (P := IsTold) ?_
  intro t full told t' level rest rest' full' returns returns' same
  rw [rows_eq, rows_eq, List.cons_append, List.cons_append, List.cons.injEq,
    PrintedLine.mk.injEq] at same
  obtain ⟨⟨_, heading⟩, below⟩ := same
  obtain ⟨listed, behind⟩ := rowsAll_told told full'.of_listed returns returns' below
  exact ⟨full.unplaced_eq full' heading listed, behind⟩

end

end Tree

namespace Grammar

/-- Only a block can be without parts. -/
theorem Derives.isFull {r : Rule} {ts : List Token} {t : Tree} (h : Derives r ts t)
    (below : r ≠ .block) (spelled : ∀ t ∈ ts, Spells t.kind t.text.toList) : t.IsFull := by
  refine h.token_induction (P := fun r ts t => r ≠ .block →
    (∀ t ∈ ts, Spells t.kind t.text.toList) → t.IsFull)
    ?transparent ?literal ?group ?unary ?binary ?indexed ?assigned ?block below spelled
  case transparent =>
    intro r s ts parts _ mem ih _ spelled
    have deeper : s ≠ .block := by
      rintro rfl
      exact absurd (Rule.rung_lt mem) (Nat.not_lt_zero _)
    exact .node (by simp) (by simpa using ih deeper spelled)
  case literal =>
    intro k l _ kind _ spelled
    exact .node (by simp) (by simpa using .token kind (spelled l (by simp)))
  case group =>
    intro o c ts t _ _ ih _ spelled
    exact .node (by simp) (by simpa using ih (by decide) fun t mem => spelled t (by simp [mem]))
  case unary =>
    intro r k s op o ts t body _ _ ih _ spelled
    have deeper : s ≠ .block := by
      rintro rfl
      cases r <;> cases body
    exact .node (by simp) (by simpa using ih deeper fun t mem => spelled t (by simp [mem]))
  case binary =>
    intro r left k right op ts o us t u body _ _ iht ihu _ spelled
    have deeper : left ≠ .block ∧ right ≠ .block := by
      cases r <;> cases body <;> decide
    have first := iht deeper.1 fun t mem => spelled t (by simp [mem])
    have second := ihu deeper.2 fun t mem => spelled t (by simp [mem])
    exact .node (by simp) (by simpa using ⟨first, second⟩)
  case indexed =>
    intro name ts indices kind ih _ spelled
    obtain ⟨own, others⟩ := List.forall_mem_cons.1 spelled
    refine .node (by simp) (List.forall_mem_cons.2 ⟨.token (k := .varName) kind own, ?_⟩)
    intro t mem
    obtain ⟨us, among, full⟩ := ih t mem
    exact full (by decide) fun t mem => others t (among mem)
  case assigned =>
    intro name sign ts t kind ih _ spelled
    obtain ⟨own, others⟩ := List.forall_mem_cons.1 spelled
    refine .node (by simp) (List.forall_mem_cons.2 ⟨.token (k := .varName) kind own, ?_⟩)
    simpa using ih (by decide) (List.forall_mem_cons.1 others).2
  case block =>
    intro ts lines _ below
    exact absurd rfl below

/-- A program has its name on the first line, and below it the lines of full trees. -/
theorem rows_of_parse {source : String} {limit : Nat} {t : Tree}
    (small : source.utf8ByteSize ≤ Span.maxOffset)
    (read : parse source .program limit = .ok t) :
    ∃ lines, t = Rule.block.node lines ∧ (∀ u ∈ lines, u.IsFull) ∧
      t.rows 0 = ⟨0, Rule.block.name.toList⟩ :: Tree.rowsAll 1 lines := by
  obtain ⟨toks, lines, scanned, derived, _, rfl⟩ := parse_program_eq_ok_iff.1 read
  have spelled := scan_spells small scanned
  refine ⟨lines, rfl, fun u mem => ?_, ?_⟩
  · obtain ⟨us, among, hu⟩ := derived.lines_within u mem
    exact hu.isFull (by decide) fun t mem => spelled t (among mem)
  · rcases Tree.sole_or_alone Rule.block.name lines with ⟨kind, text, span, rfl⟩ | ⟨heading, listed⟩
    · obtain ⟨us, hu⟩ := derived.lines _ (List.mem_singleton.2 rfl)
      obtain ⟨_, _, impossible⟩ := derives_line.1 hu
      cases impossible
    · rw [Tree.rows_eq, Rule.node, heading, listed]

theorem isLegible_of_parse {source : String} {limit : Nat} {t : Tree}
    (small : source.utf8ByteSize ≤ Span.maxOffset)
    (read : parse source .program limit = .ok t) : ∀ r ∈ t.rows 0, r.IsLegible := by
  obtain ⟨lines, rfl, full, rows⟩ := rows_of_parse small read
  rw [rows, Tree.rowsAll_eq_flatMap]
  refine List.forall_mem_cons.2 ⟨Tree.PrintedLine.isLegible_of_isSolid (Rule.name_isSolid _), ?_⟩
  intro r mem
  obtain ⟨u, among, mem⟩ := List.mem_flatMap.1 mem
  exact (full u among).isLegible r mem

end Grammar

/-- Programs that spans reach the end of are printed alike exactly if they are the same but for the
places of their terminals. -/
theorem pretty_determines_tree (source source' : String) (limit limit' : Nat) (t t' : Tree)
    (small : source.utf8ByteSize ≤ Span.maxOffset) (small' : source'.utf8ByteSize ≤ Span.maxOffset)
    (read : parse source .program limit = .ok t) (read' : parse source' .program limit' = .ok t') :
    t.pretty = t'.pretty ↔ t.unplaced = t'.unplaced := by
  constructor
  · intro same
    have texts := congrArg String.toList same
    rw [Tree.toList_pretty, Tree.toList_pretty] at texts
    have lines := Tree.PrintedLine.eq_of_flatMap_text (isLegible_of_parse small read)
      (isLegible_of_parse small' read') texts
    obtain ⟨parts, rfl, full, rows⟩ := rows_of_parse small read
    obtain ⟨parts', rfl, full', rows'⟩ := rows_of_parse small' read'
    rw [rows, rows', List.cons.injEq] at lines
    have ends : Tree.Returns 0 [] := nofun
    have told := Tree.rowsAll_told (fun u mem => (full u mem).isTold) full' ends ends
      (congrArg (· ++ []) lines.2)
    rw [Tree.unplaced_node, Tree.unplaced_node, told.1]
  · intro same
    rw [← t.pretty_unplaced, ← t'.pretty_unplaced, same]

theorem pretty_determines_tree_layouts :
    ∃ t t', parse "sum = line[sum]" .program 9 = .ok t ∧
      parse "\nsum=line [ sum ] \n" .program 7 = .ok t' ∧ t.pretty = t'.pretty ∧
        t.unplaced = t'.unplaced := by
  have told := pretty_determines_tree "sum = line[sum]" "\nsum=line [ sum ] \n" 9 7 _ _
    (by decide) (by decide) rfl rfl
  refine ⟨_, _, rfl, rfl, (and_iff_left_of_imp told.1).2 ?_⟩
  decide +kernel

/-- Beyond the largest offset numbers of both kinds are printed without a text. -/
theorem pretty_confuses_numbers :
    ∃ t t', parse (spaces 4294967296 ++ "1") .program 2 = .ok t ∧
      parse (spaces 4294967296 ++ "1.5") .program 2 = .ok t' ∧ t.pretty = t'.pretty ∧
        t.unplaced ≠ t'.unplaced := by
  have integer : scan "1" = .ok [⟨.int, "1", ⟨0, 1⟩⟩] := rfl
  have float : scan "1.5" = .ok [⟨.float, "1.5", ⟨0, 3⟩⟩] := rfl
  rw [parse, scan_far (by decide) integer, parse, scan_far (by decide) float]
  refine ⟨_, _, rfl, rfl, ?_, ?_⟩
  · decide +kernel
  · intro same
    have kinds := congrArg (fun t => t.leaves.map (·.kind)) same
    exact absurd kinds (by decide)

end Reckon
