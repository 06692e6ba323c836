import Reckon.Token
import Reckon.Tree

/-!
The names of the grammar: its rules and its terminals. The parser builds trees from them and the
standard vocabulary gives them their meaning.

    multi_line_block: lines separated by newlines
    line:             assign_var | logic_expr
    assign_var:       VARNAME "=" logic_expr
    logic_expr:       disjunction
    disjunction:      conjunction | disjunction "or" conjunction
    conjunction:      negation | conjunction "and" negation
    negation:         comparison | "not" negation
    comparison:       arith_expr | arith_expr relation arith_expr
    arith_expr:       sum
    sum:              product | sum "+" product | sum "-" product
    product:          atom | product "*" atom | product "/" atom
    atom:             SIGNED_FLOAT | INT | TRUE | FALSE | variable | "-" atom | "(" logic_expr ")"
    variable:         VARNAME ("[" arith_expr "]")*
-/

namespace Reckon
namespace Grammar

inductive Rule where
  | block
  | line
  | assignVar
  | logicExpr
  | disjunction
  | orOp
  | conjunction
  | andOp
  | negation
  | notOp
  | comparison
  | relation (op : Relation)
  | arithExpr
  | sum
  | addition
  | subtraction
  | product
  | multiplication
  | division
  | atom
  | negAtom
  | bracketed
  | variable
deriving DecidableEq

inductive Terminal where
  | int
  | signedFloat
  | true
  | false
  | varName
deriving DecidableEq

def Rule.name : Rule → String
  | .block => "multi_line_block"
  | .line => "line"
  | .assignVar => "assign_var"
  | .logicExpr => "logic_expr"
  | .disjunction => "disjunction"
  | .orOp => "or_op"
  | .conjunction => "conjunction"
  | .andOp => "and_op"
  | .negation => "negation"
  | .notOp => "not_op"
  | .comparison => "comparison"
  | .relation .greater => "greater"
  | .relation .greaterEqual => "greater_equal"
  | .relation .equal => "equal"
  | .relation .lessEqual => "less_equal"
  | .relation .less => "less"
  | .relation .notEqual => "not_equal"
  | .arithExpr => "arith_expr"
  | .sum => "sum"
  | .addition => "addition"
  | .subtraction => "subtraction"
  | .product => "product"
  | .multiplication => "multiplication"
  | .division => "division"
  | .atom => "atom"
  | .negAtom => "neg_atom"
  | .bracketed => "bracketed_arith_expr"
  | .variable => "variable"

def Terminal.name : Terminal → String
  | .int => "INT"
  | .signedFloat => "SIGNED_FLOAT"
  | .true => "TRUE"
  | .false => "FALSE"
  | .varName => "VARNAME"

def Rule.node (rule : Rule) (children : List Tree) : Tree := .rule rule.name children

def Terminal.leaf (terminal : Terminal) (text : String) (span : Span) : Tree :=
  .terminal terminal.name text span

/-- Where reading begins. -/
inductive Start where
  | program
  | line
  | expression
  | arith
deriving DecidableEq

end Grammar
end Reckon
