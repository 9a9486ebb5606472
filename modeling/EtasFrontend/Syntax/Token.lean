import Mathlib.Data.Nat.Notation

/-! Tokens, and the cursor of the parser over those that are significant. -/
namespace EtasFrontend.Syntax

inductive CommentKind where
  | line | block
  deriving DecidableEq

inductive Keyword where
  | «module» | «import» | «as» | alias | type | enum | spec | impl | «where» | «private» | «public»
  | flow | effect | «extends» | policy | follows | action | perform | handle | handler | «with»
  | resume | finish | tool | agent | allow | require | deny | before | after | protocol | «let»
  | var | «if» | «else» | «match» | «for» | «in» | «while» | limit | retry | «return» | «break»
  | «continue» | true | false
  deriving DecidableEq

inductive Punct where
  | lParen | rParen | lBrace | rBrace | lBracket | rBracket | comma | dot | colon | colonColon
  | semi | arrow | fatArrow | pipe | tilde | tildeArrow | eq | eqEq | bang | bangEq | lt | ltEq
  | gt | gtEq | plus | minus | amp | star | slash | percent | ampAmp | pipePipe | question | hash
  | at | caret
  deriving DecidableEq

inductive TokenKind where
  | ident | intLit | floatLit | stringLit | charLit
  | keyword (keyword : Keyword)
  | punct (punct : Punct)
  | whitespace
  | comment (kind : CommentKind)
  | unknown
  | eof
  deriving DecidableEq

namespace TokenKind

def isIdentLike : TokenKind → Bool
  | .ident | .keyword _ => true
  | _ => false

end TokenKind

/-- The span is the source's own type of spans. -/
structure Token (Span : Type) where
  kind : TokenKind
  span : Span

/-- There is always a token, since the last one is the end of the file. -/
structure Cursor (Span : Type) where
  tokens : List (Token Span)
  position : ℕ
  nonempty : tokens ≠ []

namespace Cursor
variable {Span : Type} (cursor : Cursor Span)

def index (offset : ℕ) : ℕ := min (cursor.position + offset) (cursor.tokens.length - 1)

theorem index_lt (offset : ℕ) : cursor.index offset < cursor.tokens.length := by
  have := List.length_pos_iff.mpr cursor.nonempty
  unfold index
  omega

def nth (n : ℕ) : Token Span := cursor.tokens.get ⟨cursor.index n, cursor.index_lt n⟩

def peek : Token Span := cursor.nth 0

/-- The cursor after its token; the last token stays. -/
def bump : Cursor Span :=
  if cursor.position + 1 < cursor.tokens.length then { cursor with position := cursor.position + 1 }
  else cursor

def atEof : Bool := cursor.peek.kind == .eof

def atPunct (punct : Punct) : Bool := cursor.peek.kind == .punct punct

def atIdentLike : Bool := cursor.peek.kind.isIdentLike

/-- The cursor at the end of the file. -/
def skipToEof : ℕ → Cursor Span → Cursor Span
  | 0, cursor => cursor
  | n + 1, cursor => if cursor.atEof then cursor else skipToEof n cursor.bump

end Cursor
end EtasFrontend.Syntax
