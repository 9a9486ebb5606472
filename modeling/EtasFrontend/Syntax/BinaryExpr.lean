import EtasFrontend.Lib.Precedence
import EtasFrontend.Syntax.Token

/-! Binary expressions: a loop over operators that calls itself for the right operand. Unary
operands and spans are the parser's own, whatever they are. -/
namespace EtasFrontend.Syntax
open Lib (OperatorTree)

inductive BodyResourceKind where
  | sourceBytes | tokens | recursion

structure BodyResourceError (Span : Type) where
  kind : BodyResourceKind
  limit : ℕ
  span : Span

structure BodyParseBudget (Span : Type) where
  maxRecursion : ℕ
  depth : ℕ
  error : Option (BodyResourceError Span)

/-- The parser's state: what it has collected is in the last field. -/
structure Parser (Span State : Type) where
  cursor : Cursor Span
  bodyBudget : Option (BodyParseBudget Span)
  state : State

inductive BinaryOp where
  | orOr | andAnd | eqEq | bangEq | lt | ltEq | gt | gtEq | add | sub | mul | div | rem

/-- An expression as far as it is built here. -/
inductive Expr (Span Operand : Type) where
  | unary (operand : Operand) (span : Span)
  | error (span : Span)
  | binary (lhs : Expr Span Operand) (op : BinaryOp) (rhs : Expr Span Operand) (span : Span)

variable {Span State Operand : Type}

def Expr.span : Expr Span Operand → Span
  | .unary _ span => span
  | .error span => span
  | .binary _ _ _ span => span

namespace Parser

def exhaustBodyRecursion (parser : Parser Span State) (span : Span) : Parser Span State :=
  { parser with
    bodyBudget := parser.bodyBudget.map fun budget =>
      { budget with error := some (budget.error.getD ⟨.recursion, budget.maxRecursion, span⟩) }
    cursor := Cursor.skipToEof (parser.cursor.tokens.length - parser.cursor.position) parser.cursor }

def withBodyRecursion {T : Type} (invalid : Span → T)
    (parse : Parser Span State → Option (T × Parser Span State)) (parser : Parser Span State) :
    Option (T × Parser Span State) :=
  match parser.bodyBudget with
  | none => parse parser
  | some budget =>
    if budget.error.isSome || budget.depth ≥ budget.maxRecursion then
      let span := parser.cursor.peek.span
      some (invalid span, parser.exhaustBodyRecursion span)
    else do
      let (result, parser) ←
        parse { parser with bodyBudget := some { budget with depth := budget.depth + 1 } }
      return (result, { parser with
        bodyBudget := parser.bodyBudget.map fun budget => { budget with depth := budget.depth - 1 } })

def bodyChainStep (parser : Parser Span State) (length : ℕ) : Bool × ℕ × Parser Span State :=
  if parser.bodyBudget.any fun budget => length + 1 > budget.maxRecursion then
    (false, length + 1, parser.exhaustBodyRecursion parser.cursor.peek.span)
  else (true, length + 1, parser)

end Parser

def binaryOp : TokenKind → Option (BinaryOp × ℕ)
  | .punct .pipePipe => some (.orOr, 1)
  | .punct .ampAmp => some (.andAnd, 2)
  | .punct .eqEq => some (.eqEq, 3)
  | .punct .bangEq => some (.bangEq, 3)
  | .punct .lt => some (.lt, 4)
  | .punct .ltEq => some (.ltEq, 4)
  | .punct .gt => some (.gt, 4)
  | .punct .gtEq => some (.gtEq, 4)
  | .punct .plus => some (.add, 5)
  | .punct .minus => some (.sub, 5)
  | .punct .star => some (.mul, 6)
  | .punct .slash => some (.div, 6)
  | .punct .percent => some (.rem, 6)
  | _ => none

variable (cover : Span → Span → Span)
  (unaryExpr : Parser Span State → Expr Span Operand × Parser Span State)

mutual

def binaryExpr : ℕ → ℕ → Parser Span State → Option (Expr Span Operand × Parser Span State)
  | 0, _, _ => none
  | n + 1, minPrec, parser => parser.withBodyRecursion Expr.error fun parser =>
    let (lhs, parser) := unaryExpr parser
    binaryRest n minPrec lhs 0 parser

/-- The loop of `binary_expr_inner`. -/
def binaryRest : ℕ → ℕ → Expr Span Operand → ℕ → Parser Span State →
    Option (Expr Span Operand × Parser Span State)
  | 0, _, _, _, _ => none
  | n + 1, minPrec, lhs, chain, parser =>
    match binaryOp parser.cursor.peek.kind with
    | none => some (lhs, parser)
    | some (op, prec) =>
      if prec < minPrec then some (lhs, parser)
      else
        match parser.bodyChainStep chain with
        | (false, _, parser) => some (lhs, parser)
        | (true, chain, parser) => do
          let (rhs, parser) ← binaryExpr n (prec + 1) { parser with cursor := parser.cursor.bump }
          binaryRest n minPrec (.binary lhs op rhs (cover lhs.span rhs.span)) chain parser

end
end EtasFrontend.Syntax
