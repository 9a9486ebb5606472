import EtasFrontend.Lib.Nesting
import EtasFrontend.Syntax.Token

/-! The predicates by which the parser looks ahead. Each reads a fixed number of tokens at most. -/
namespace EtasFrontend.Syntax
open Lib (Reading)

variable {Span : Type}

/-- `for idx in idx..idx + n` over the tokens ahead, with a state. An answer also sees the kind of
the token after the one it is given at. -/
def Cursor.lookahead {σ : Type} (step : σ → TokenKind → Reading σ TokenKind) (cursor : Cursor Span) :
    ℕ → ℕ → σ → Bool
  | 0, _, _ => false
  | n + 1, idx, state =>
    match step state (cursor.nth idx).kind with
    | .goOn state => lookahead step cursor n (idx + 1) state
    | .answer holds => holds (cursor.nth (idx + 1)).kind

/-- The step of `looks_like_lambda_param_list` and of `bracket_group_followed_by`. -/
def groupStep (opens closes : TokenKind → Bool) (followed : TokenKind) (depth : ℕ)
    (kind : TokenKind) : Reading ℕ TokenKind :=
  if opens kind then .goOn (depth + 1)
  else if closes kind then
    if depth - 1 = 0 then .answer (· == followed) else .goOn (depth - 1)
  else if kind = .eof then .answer fun _ => false
  else .goOn depth

namespace Parser

def looksLikeLambdaParamList (cursor : Cursor Span) : Bool :=
  cursor.lookahead
    (groupStep (· == .punct .lParen) (· == .punct .rParen) (.punct .fatArrow)) 96 0 0

def bracketGroupFollowedBy (cursor : Cursor Span) (punct : Punct) : Bool :=
  cursor.lookahead
    (groupStep (fun kind => kind == .punct .lBracket || kind == .punct .lt)
      (fun kind => kind == .punct .rBracket || kind == .punct .gt) (.punct punct)) 96 0 0

end Parser

structure SliceDepths where
  paren : ℕ
  bracket : ℕ
  brace : ℕ
  sawComma : Bool

/-- Inside the parenthesis the scan began with, and in no other group. -/
def SliceDepths.atGroup (depths : SliceDepths) : Bool :=
  depths.paren == 1 && depths.bracket == 0 && depths.brace == 0

def sliceStep (depths : SliceDepths) : TokenKind → Reading SliceDepths TokenKind
  | .punct .lParen => .goOn { depths with paren := depths.paren + 1 }
  | .punct .rParen =>
    if depths.atGroup then .answer fun _ => false
    else .goOn { depths with paren := depths.paren - 1 }
  | .punct .lBracket => .goOn { depths with bracket := depths.bracket + 1 }
  | .punct .rBracket =>
    if depths.atGroup then .answer fun _ => depths.sawComma
    else .goOn { depths with bracket := depths.bracket - 1 }
  | .punct .lBrace => .goOn { depths with brace := depths.brace + 1 }
  | .punct .rBrace => .goOn { depths with brace := depths.brace - 1 }
  | .punct .comma =>
    if depths.atGroup then .goOn { depths with sawComma := true } else .goOn depths
  | .eof => .answer fun _ => false
  | _ => .goOn depths

def assignmentStep (depth : ℕ) : TokenKind → Reading ℕ TokenKind
  | .punct .lParen | .punct .lBracket | .punct .lBrace => .goOn (depth + 1)
  | .punct .rParen | .punct .rBracket | .punct .rBrace =>
    if depth = 0 then .answer fun _ => false else .goOn (depth - 1)
  | .punct .eq => if depth = 0 then .answer fun _ => true else .goOn depth
  | .punct .semi => if depth = 0 then .answer fun _ => false else .goOn depth
  | .eof => .answer fun _ => false
  | _ => .goOn depth

namespace Parser

def openClosedSliceFollows (cursor : Cursor Span) : Bool :=
  cursor.lookahead sliceStep 96 0 ⟨0, 0, 0, false⟩

def startsAssignmentStmt (cursor : Cursor Span) : Bool :=
  if !cursor.atIdentLike then false else cursor.lookahead assignmentStep 64 0 0

end Parser

/-! What lies ahead, without a limit. -/

namespace Cursor

/-- The kinds of the tokens from the cursor to the end of the file. -/
def ahead (cursor : Cursor Span) : List TokenKind :=
  ((cursor.tokens.drop cursor.position).map (·.kind)).takeWhile (· != .eof)

/-- As the lexer leaves them, the tokens end with the end of the file. -/
def EndsWithEof (cursor : Cursor Span) : Prop := (cursor.tokens.getLast cursor.nonempty).kind = .eof

end Cursor
end EtasFrontend.Syntax
