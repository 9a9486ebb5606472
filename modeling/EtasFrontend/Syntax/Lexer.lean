import EtasFrontend.Lib.Utf8
import EtasFrontend.Syntax.Token

/-! The lexer. It walks over the bytes of a text; a slice off the boundaries of characters, and a
missing character, are `none`, as are loops that take more steps than there are bytes. -/
namespace EtasFrontend.Syntax
open Lib

/-- Offsets count bytes without a bound: texts of 4 GiB or more, which 32-bit offsets do not reach,
are left out. -/
structure Span where
  source : ℕ
  start : ℕ
  stop : ℕ

inductive SyntaxDiagnosticCode where
  | unterminatedBlockComment | unterminatedString | invalidLiteral | unexpectedToken

structure Diagnostic where
  code : SyntaxDiagnosticCode
  span : Span
  message : String

structure SourceFile where
  id : ℕ
  text : List Char

structure TokenStream where
  source : ℕ
  tokens : List (Token Span)

/-- The Unicode classes of characters. -/
structure CharClasses where
  isWhitespace : Char → Bool
  isAlphabetic : Char → Bool
  isAlphanumeric : Char → Bool

def Keyword.fromIdent (text : List Char) : Option Keyword :=
  match String.ofList text with
  | "module" => some .module
  | "import" => some .import
  | "as" => some .as
  | "alias" => some .alias
  | "type" => some .type
  | "enum" => some .enum
  | "spec" => some .spec
  | "impl" => some .impl
  | "where" => some .where
  | "private" => some .private
  | "public" => some .public
  | "flow" => some .flow
  | "effect" => some .effect
  | "extends" => some .extends
  | "policy" => some .policy
  | "follows" => some .follows
  | "action" => some .action
  | "perform" => some .perform
  | "handle" => some .handle
  | "handler" => some .handler
  | "with" => some .with
  | "resume" => some .resume
  | "finish" => some .finish
  | "tool" => some .tool
  | "agent" => some .agent
  | "allow" => some .allow
  | "require" => some .require
  | "deny" => some .deny
  | "before" => some .before
  | "after" => some .after
  | "protocol" => some .protocol
  | "let" => some .let
  | "var" => some .var
  | "if" => some .if
  | "else" => some .else
  | "match" => some .match
  | "for" => some .for
  | "in" => some .in
  | "while" => some .while
  | "limit" => some .limit
  | "retry" => some .retry
  | "return" => some .return
  | "break" => some .break
  | "continue" => some .continue
  | "true" => some .true
  | "false" => some .false
  | _ => none

/-- The punctuation of two characters, tried before that of one. -/
def twoPunct : List (List Char × Punct) :=
  [(['-', '>'], .arrow), (['=', '>'], .fatArrow), (['~', '>'], .tildeArrow),
    ([':', ':'], .colonColon), (['=', '='], .eqEq), (['!', '='], .bangEq), (['<', '='], .ltEq),
    (['>', '='], .gtEq), (['&', '&'], .ampAmp), (['|', '|'], .pipePipe)]

def onePunct : Char → Option Punct
  | '(' => some .lParen
  | ')' => some .rParen
  | '{' => some .lBrace
  | '}' => some .rBrace
  | '[' => some .lBracket
  | ']' => some .rBracket
  | ',' => some .comma
  | '.' => some .dot
  | ':' => some .colon
  | ';' => some .semi
  | '|' => some .pipe
  | '~' => some .tilde
  | '=' => some .eq
  | '!' => some .bang
  | '<' => some .lt
  | '>' => some .gt
  | '+' => some .plus
  | '-' => some .minus
  | '&' => some .amp
  | '*' => some .star
  | '/' => some .slash
  | '%' => some .percent
  | '?' => some .question
  | '#' => some .hash
  | '@' => some .at
  | '^' => some .caret
  | _ => none

def punct (rest : List Char) : Option (TokenKind × ℕ) :=
  match twoPunct.find? fun entry => entry.1.isPrefixOf rest with
  | some (text, punct) => some (.punct punct, Utf8.size text)
  | none => do
    let punct ← onePunct (← rest.head?)
    return (.punct punct, 1)

namespace Lexer
section Scan
variable (text : List Char)

/-- `text[offset..].chars().next().unwrap()` -/
def charAt (offset : ℕ) : Option Char := (Utf8.sliceFrom text offset).bind List.head?

/-- Over the characters that satisfy `p`. -/
def skipWhile (p : Char → Bool) : ℕ → ℕ → Option ℕ
  | 0, _ => none
  | n + 1, offset =>
    if offset < Utf8.size text then do
      let next ← charAt text offset
      if p next then skipWhile p n (offset + next.utf8Size) else return offset
    else some offset

/-- To the end of the line, byte by byte. -/
def skipLine : ℕ → ℕ → Option ℕ
  | 0, _ => none
  | n + 1, offset =>
    match (Utf8.bytes text)[offset]? with
    | some byte => if byte = '\n'.toUInt8 then some offset else skipLine n (offset + 1)
    | none => some offset

/-- To the end of a block comment. -/
def skipBlock : ℕ → ℕ → Option ℕ
  | 0, _ => none
  | n + 1, offset =>
    if offset < Utf8.size text then do
      let rest ← Utf8.sliceFrom text offset
      if ['*', '/'].isPrefixOf rest then return offset
      let next ← rest.head?
      skipBlock n (offset + next.utf8Size)
    else some offset

/-- To the end of a literal, and whether its quote was found. A backslash takes the character after
it along. -/
def skipQuoted (quote : Char) : ℕ → ℕ → Option (ℕ × Bool)
  | 0, _ => none
  | n + 1, offset =>
    if offset < Utf8.size text then do
      let next ← charAt text offset
      let offset := offset + next.utf8Size
      if next = '\\' ∧ offset < Utf8.size text then
        let escaped ← charAt text offset
        skipQuoted quote n (offset + escaped.utf8Size)
      else if next = quote then return (offset, true)
      else if next = '\n' then return (offset, false)
      else skipQuoted quote n offset
    else some (offset, false)

def isDigitPart (ch : Char) : Bool := ch.isDigit || ch == '_'

def isRadix (ch : Char) : Bool := ['x', 'X', 'o', 'O', 'b', 'B'].contains ch

/-- The enough many steps of a loop. -/
def steps : ℕ := Utf8.size text + 1

def lexFraction (offset : ℕ) : Option (TokenKind × ℕ) :=
  if offset < Utf8.size text then do
    let rest ← Utf8.sliceFrom text offset
    if ['.'].isPrefixOf rest then
      let rest ← Utf8.sliceFrom text (offset + 1)
      if rest.head?.any Char.isDigit then
        return (.floatLit, ← skipWhile text isDigitPart (steps text) (offset + 1))
    return (.intLit, offset)
  else some (.intLit, offset)

/-- The sign of an exponent, if there is one. -/
def skipSign (offset : ℕ) : Option ℕ :=
  if offset < Utf8.size text then do
    let rest ← Utf8.sliceFrom text offset
    return if rest.head?.any (['+', '-'].contains ·) then offset + 1 else offset
  else some offset

def lexExponent (kind : TokenKind) (offset : ℕ) : Option (TokenKind × ℕ) :=
  if offset < Utf8.size text then do
    let rest ← Utf8.sliceFrom text offset
    if rest.head?.any (['e', 'E'].contains ·) then
      let offset ← skipSign text (offset + 1)
      return (.floatLit, ← skipWhile text isDigitPart (steps text) offset)
    return (kind, offset)
  else some (kind, offset)

def lexDecimal (offset : ℕ) : Option (TokenKind × ℕ) := do
  let offset ← skipWhile text isDigitPart (steps text) offset
  let (kind, offset) ← lexFraction text offset
  lexExponent text kind offset

/-- After the first digit. -/
def lexNumber (first : Char) (offset : ℕ) : Option (TokenKind × ℕ) :=
  if first = '0' ∧ offset < Utf8.size text then do
    let radix ← charAt text offset
    if isRadix radix then
      return (.intLit, ← skipWhile text (fun next => next.isAlphanum || next == '_') (steps text)
        (offset + radix.utf8Size))
    lexDecimal text offset
  else lexDecimal text offset

end Scan

section Tokens
variable (classes : CharClasses) (source : SourceFile)

def isIdentStart (ch : Char) : Bool := ch == '_' || classes.isAlphabetic ch

def isIdentContinue (ch : Char) : Bool := ch == '_' || classes.isAlphanumeric ch

def span (start stop : ℕ) : Span := ⟨source.id, start, stop⟩

def diagnostic (found : Bool) (code : SyntaxDiagnosticCode) (start stop : ℕ) (message : String) :
    List Diagnostic :=
  if found then [⟨code, span source start stop, message⟩] else []

/-- One turn of the loop: the kind of the token at `start`, where it ends, and what is wrong with
it. -/
def lexToken (start : ℕ) (rest : List Char) (ch : Char) :
    Option (TokenKind × ℕ × List Diagnostic) :=
  let text := source.text
  if classes.isWhitespace ch then do
    let offset ← skipWhile text classes.isWhitespace (steps text) (start + ch.utf8Size)
    return (.whitespace, offset, [])
  else if ['/', '/'].isPrefixOf rest then do
    let offset ← skipLine text (steps text) (start + 2)
    return (.comment .line, offset, [])
  else if ['/', '*'].isPrefixOf rest then do
    let offset ← skipBlock text (steps text) (start + 2)
    let terminated := decide (offset < Utf8.size text)
    let offset := if terminated then offset + 2 else offset
    return (.comment .block, offset, diagnostic source (!terminated) .unterminatedBlockComment start
      offset "unterminated block comment")
  else if isIdentStart classes ch then do
    let offset ← skipWhile text (isIdentContinue classes) (steps text) (start + ch.utf8Size)
    let ident ← Utf8.slice text start offset
    return (((Keyword.fromIdent ident).map TokenKind.keyword).getD .ident, offset, [])
  else if ch.isDigit then do
    let (kind, offset) ← lexNumber text ch (start + ch.utf8Size)
    return (kind, offset, [])
  else if ch = '"' then do
    let (offset, terminated) ← skipQuoted text '"' (steps text) (start + 1)
    return (.stringLit, offset, diagnostic source (!terminated) .unterminatedString start offset
      "unterminated string literal")
  else if ch = '\'' then do
    let (offset, terminated) ← skipQuoted text '\'' (steps text) (start + 1)
    return (.charLit, offset, diagnostic source (!terminated) .invalidLiteral start offset
      "unterminated character literal")
  else
    let (kind, len) := (punct rest).getD (.unknown, ch.utf8Size)
    some (kind, start + len, diagnostic source (kind == .unknown) .unexpectedToken start
      (start + len) "unknown token")

/-- The loop, with the tokens and the diagnostics so far. -/
def lexLoop : ℕ → ℕ → List (Token Span) × List Diagnostic →
    Option (List (Token Span) × List Diagnostic)
  | 0, _, _ => none
  | n + 1, offset, (tokens, diagnostics) =>
    if offset < Utf8.size source.text then do
      let rest ← Utf8.sliceFrom source.text offset
      match rest.head? with
      | none => return (tokens, diagnostics)
      | some ch =>
        let (kind, stop, found) ← lexToken classes source offset rest ch
        lexLoop n stop (tokens ++ [⟨kind, span source offset stop⟩], diagnostics ++ found)
    else some (tokens, diagnostics)

/-- `lex_with_diagnostics`: no checkpoint ends it early. -/
def lex : Option (TokenStream × List Diagnostic) := do
  let (tokens, diagnostics) ← lexLoop classes source (steps source.text) 0 ([], [])
  let eof := span source (Utf8.size source.text) (Utf8.size source.text)
  return (⟨source.id, tokens ++ [⟨.eof, eof⟩]⟩, diagnostics)

end Tokens
end Lexer
end EtasFrontend.Syntax
