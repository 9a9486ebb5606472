import EtasFrontend.Syntax.Lexer
import Mathlib.Data.List.Chain

/-! Every scan of the lexer goes from one boundary of characters to another, and so do the tokens. -/
namespace EtasFrontend.Syntax
open Lib
open Lib.Utf8 (Boundary size sliceFrom)

namespace Lexer
variable {kind : TokenKind}

section Scan
variable {text : List Char} {offset : ℕ}

/-- A scan from `offset` that arrives at a boundary. -/
def Reaches (text : List Char) (offset : ℕ) (found : Option ℕ) : Prop :=
  ∃ stop, found = some stop ∧ offset ≤ stop ∧ Boundary text stop

/-- A scan that also says which token it went over. -/
def ReachesToken (text : List Char) (offset : ℕ) (found : Option (TokenKind × ℕ)) : Prop :=
  ∃ kind stop, found = some (kind, stop) ∧ kind ≠ .eof ∧ offset ≤ stop ∧ Boundary text stop

theorem Reaches.refl (h : Boundary text offset) : Reaches text offset (some offset) :=
  ⟨offset, rfl, le_rfl, h⟩

theorem Reaches.mono {start : ℕ} {found : Option ℕ} (h : Reaches text offset found)
    (hle : start ≤ offset) : Reaches text start found := by
  obtain ⟨stop, hfound, hstop, hb⟩ := h
  exact ⟨stop, hfound, hle.trans hstop, hb⟩

theorem ReachesToken.mono {start : ℕ} {found : Option (TokenKind × ℕ)}
    (h : ReachesToken text offset found) (hle : start ≤ offset) : ReachesToken text start found := by
  obtain ⟨kind, stop, hfound, hkind, hstop, hb⟩ := h
  exact ⟨kind, stop, hfound, hkind, hle.trans hstop, hb⟩

theorem ReachesToken.refl (hkind : kind ≠ .eof) (h : Boundary text offset) :
    ReachesToken text offset (some (kind, offset)) :=
  ⟨kind, offset, rfl, hkind, le_rfl, h⟩

theorem charAt_of_boundary (hb : Boundary text offset) (h : offset < size text) :
    ∃ c, charAt text offset = some c ∧ Boundary text (offset + c.utf8Size) := by
  obtain ⟨c, rest, hrest, hnext⟩ := hb.next h
  exact ⟨c, by rw [charAt, hrest]; rfl, hnext⟩

theorem skipWhile_reaches (p : Char → Bool) {n : ℕ} (hb : Boundary text offset)
    (hn : size text - offset < n) : Reaches text offset (skipWhile text p n offset) := by
  induction n generalizing offset with
  | zero => exact absurd hn (Nat.not_lt_zero _)
  | succ n ih =>
    rw [skipWhile]
    split
    case isFalse => exact .refl hb
    case isTrue h =>
      obtain ⟨c, hc, hnext⟩ := charAt_of_boundary hb h
      have hpos := c.utf8Size_pos
      rw [hc, Option.bind_eq_bind, Option.bind_some]
      split
      · exact (ih hnext (by omega)).mono (Nat.le_add_right _ _)
      · exact .refl hb

theorem skipWhile_steps (p : Char → Bool) (hb : Boundary text offset) :
    Reaches text offset (skipWhile text p (steps text) offset) :=
  skipWhile_reaches p hb (by unfold steps; omega)

theorem skipLine_add {k n : ℕ}
    (h : ∀ i < k, ∃ b, (Utf8.bytes text)[offset + i]? = some b ∧ b ≠ '\n'.toUInt8) :
    skipLine text (n + k) offset = skipLine text n (offset + k) := by
  induction k generalizing offset with
  | zero => rfl
  | succ k ih =>
    obtain ⟨b, hb, hne⟩ := h 0 (Nat.succ_pos k)
    have hrest : ∀ i < k, ∃ b, (Utf8.bytes text)[offset + 1 + i]? = some b ∧ b ≠ '\n'.toUInt8 := by
      intro i hi
      rw [Nat.add_assoc, Nat.add_comm 1 i]
      exact h (i + 1) (Nat.succ_lt_succ hi)
    rw [Nat.add_zero] at hb
    rw [← Nat.add_assoc, skipLine, hb]
    dsimp only
    rw [if_neg hne, ih hrest, Nat.add_assoc, Nat.add_comm 1 k]

theorem bytes_of_next {c : Char} {rest : List Char}
    (h : sliceFrom text offset = some (c :: rest)) {i : ℕ} (hi : i < c.utf8Size) :
    ∃ b ∈ String.utf8EncodeChar c, (Utf8.bytes text)[offset + i]? = some b := by
  obtain ⟨before, rfl, rfl⟩ := Utf8.sliceFrom_eq_some h
  have hlen : i < (String.utf8EncodeChar c).length := by rwa [String.length_utf8EncodeChar]
  refine ⟨(String.utf8EncodeChar c)[i], List.getElem_mem hlen, ?_⟩
  rw [Utf8.bytes_append, ← Utf8.length_bytes, List.getElem?_append_right (Nat.le_add_right _ _),
    Nat.add_sub_cancel_left, Utf8.bytes, List.flatMap_cons, List.getElem?_append_left hlen]
  exact List.getElem?_eq_getElem hlen

theorem bytes_ne_newline {c : Char} (hc : c ≠ '\n') {b : UInt8}
    (h : b ∈ String.utf8EncodeChar c) : b ≠ '\n'.toUInt8 := by
  rintro rfl
  apply hc
  apply Char.ext
  apply UInt32.toNat.inj
  exact Utf8.utf8EncodeChar_of_ascii (by decide) h

theorem skipLine_reaches {offset n : ℕ} (hb : Boundary text offset) (hn : size text - offset < n) :
    Reaches text offset (skipLine text n offset) := by
  obtain hlt | hend := Nat.lt_or_ge offset (size text)
  · obtain ⟨c, rest, hrest, hnext⟩ := hb.next hlt
    have hpos := c.utf8Size_pos
    by_cases hc : c = '\n'
    · obtain ⟨n, rfl⟩ : ∃ m, n = m + 1 := ⟨n - 1, by omega⟩
      obtain ⟨b, hmem, hbyte⟩ := bytes_of_next hrest hpos
      have hb' : b = '\n'.toUInt8 := by
        rw [hc] at hmem
        exact List.mem_singleton.mp hmem
      rw [Nat.add_zero] at hbyte
      rw [skipLine, hbyte]
      dsimp only
      rw [if_pos hb']
      exact .refl hb
    · have hle := hnext.le
      obtain ⟨m, rfl⟩ : ∃ m, n = m + c.utf8Size := ⟨n - c.utf8Size, by omega⟩
      have hbytes : ∀ i < c.utf8Size, ∃ b, (Utf8.bytes text)[offset + i]? = some b ∧
          b ≠ '\n'.toUInt8 := by
        intro i hi
        obtain ⟨b, hmem, hbyte⟩ := bytes_of_next hrest hi
        exact ⟨b, hbyte, bytes_ne_newline hc hmem⟩
      rw [skipLine_add hbytes]
      exact (skipLine_reaches hnext (by omega)).mono (Nat.le_add_right _ _)
  · obtain ⟨n, rfl⟩ : ∃ m, n = m + 1 := ⟨n - 1, by omega⟩
    have hnone : (Utf8.bytes text)[offset]? = none := by
      rwa [List.getElem?_eq_none_iff, Utf8.length_bytes]
    rw [skipLine, hnone]
    exact .refl hb
termination_by size text - offset

theorem skipBlock_reaches {n : ℕ} (hb : Boundary text offset) (hn : size text - offset < n) :
    ∃ stop, skipBlock text n offset = some stop ∧ offset ≤ stop ∧ Boundary text stop ∧
      (stop < size text → Boundary text (stop + 2)) := by
  induction n generalizing offset with
  | zero => exact absurd hn (Nat.not_lt_zero _)
  | succ n ih =>
    rw [skipBlock]
    split
    case isFalse h => exact ⟨offset, rfl, le_rfl, hb, fun hlt => absurd hlt h⟩
    case isTrue h =>
      obtain ⟨c, rest, hrest, hnext⟩ := hb.next h
      have hpos := c.utf8Size_pos
      rw [hrest, Option.bind_eq_bind, Option.bind_some]
      split
      case isTrue hclose =>
        obtain ⟨after, hafter⟩ := List.isPrefixOf_iff_prefix.mp hclose
        rw [← hafter] at hrest
        exact ⟨offset, rfl, le_rfl, hb, fun _ => .add ['*', '/'] hrest⟩
      case isFalse =>
        obtain ⟨stop, hstop, hle, hb', hclosed⟩ := ih hnext (by omega)
        exact ⟨stop, hstop, (Nat.le_add_right _ _).trans hle, hb', hclosed⟩

theorem skipQuoted_reaches (quote : Char) {n : ℕ} (hb : Boundary text offset)
    (hn : size text - offset < n) :
    ∃ stop terminated, skipQuoted text quote n offset = some (stop, terminated) ∧ offset ≤ stop ∧
      Boundary text stop := by
  induction n generalizing offset with
  | zero => exact absurd hn (Nat.not_lt_zero _)
  | succ n ih =>
    rw [skipQuoted]
    split
    case isFalse => exact ⟨offset, false, rfl, le_rfl, hb⟩
    case isTrue h =>
      obtain ⟨c, hc, hnext⟩ := charAt_of_boundary hb h
      have hpos := c.utf8Size_pos
      rw [hc, Option.bind_eq_bind, Option.bind_some]
      dsimp only
      split
      case isTrue hescape =>
        obtain ⟨escaped, hescaped, hnext'⟩ := charAt_of_boundary hnext hescape.2
        rw [hescaped, Option.bind_some]
        obtain ⟨stop, terminated, hstop, hle, hb'⟩ := ih hnext' (by omega)
        exact ⟨stop, terminated, hstop, by omega, hb'⟩
      case isFalse =>
        split
        · exact ⟨_, true, rfl, Nat.le_add_right _ _, hnext⟩
        split
        · exact ⟨_, false, rfl, Nat.le_add_right _ _, hnext⟩
        obtain ⟨stop, terminated, hstop, hle, hb'⟩ := ih hnext (by omega)
        exact ⟨stop, terminated, hstop, by omega, hb'⟩

theorem utf8Size_of_mem {chars : List Char} (h : chars.all (·.utf8Size = 1) = true) {c : Char}
    (hc : chars.contains c = true) : c.utf8Size = 1 :=
  of_decide_eq_true (List.all_eq_true.mp h c (List.contains_iff_mem.mp hc))

theorem boundary_of_any {chars rest : List Char} (hchars : chars.all (·.utf8Size = 1) = true)
    (hrest : sliceFrom text offset = some rest)
    (h : rest.head?.any (chars.contains ·) = true) : Boundary text (offset + 1) := by
  cases rest with
  | nil => cases h
  | cons c rest =>
    rw [← utf8Size_of_mem hchars h]
    exact Boundary.add [c] hrest

theorem sliceFrom_of_boundary (hb : Boundary text offset) :
    ∃ rest, sliceFrom text offset = some rest := by
  obtain ⟨before, after, rfl, rfl⟩ := hb
  exact ⟨after, Utf8.sliceFrom_size before after⟩

theorem lexFraction_reaches (hb : Boundary text offset) :
    ReachesToken text offset (lexFraction text offset) := by
  unfold lexFraction
  split
  case isFalse => exact .refl (by decide) hb
  case isTrue =>
    obtain ⟨rest, hrest⟩ := sliceFrom_of_boundary hb
    rw [hrest, Option.bind_eq_bind, Option.bind_some]
    split
    case isFalse => exact .refl (by decide) hb
    case isTrue hdot =>
      obtain ⟨after, hafter⟩ := List.isPrefixOf_iff_prefix.mp hdot
      rw [← hafter] at hrest
      have hnext : Boundary text (offset + 1) := .add ['.'] hrest
      obtain ⟨digits, hdigits⟩ := sliceFrom_of_boundary hnext
      rw [hdigits, Option.bind_some]
      split
      · obtain ⟨stop, hstop, hle, hb'⟩ := skipWhile_steps isDigitPart hnext
        rw [hstop]
        exact ⟨.floatLit, stop, rfl, by decide, by omega, hb'⟩
      · exact .refl (by decide) hb

theorem skipSign_reaches (hb : Boundary text offset) :
    Reaches text offset (skipSign text offset) := by
  unfold skipSign
  split
  case isFalse => exact .refl hb
  case isTrue =>
    obtain ⟨rest, hrest⟩ := sliceFrom_of_boundary hb
    rw [hrest, Option.bind_eq_bind, Option.bind_some]
    split
    case isTrue hsign =>
      exact ⟨offset + 1, rfl, Nat.le_succ _, boundary_of_any (by decide) hrest hsign⟩
    case isFalse => exact .refl hb

theorem lexExponent_reaches (hkind : kind ≠ .eof) (hb : Boundary text offset) :
    ReachesToken text offset (lexExponent text kind offset) := by
  unfold lexExponent
  split
  case isFalse => exact .refl hkind hb
  case isTrue =>
    obtain ⟨rest, hrest⟩ := sliceFrom_of_boundary hb
    rw [hrest, Option.bind_eq_bind, Option.bind_some]
    split
    case isFalse => exact .refl hkind hb
    case isTrue hexp =>
      obtain ⟨sign, hsign, hle, hb'⟩ := skipSign_reaches (boundary_of_any (by decide) hrest hexp)
      obtain ⟨stop, hstop, hle', hb''⟩ := skipWhile_steps isDigitPart hb'
      rw [hsign, Option.bind_eq_bind, Option.bind_some, hstop]
      exact ⟨.floatLit, stop, rfl, by decide, by omega, hb''⟩

theorem lexDecimal_reaches (hb : Boundary text offset) :
    ReachesToken text offset (lexDecimal text offset) := by
  obtain ⟨digits, hdigits, hle, hb⟩ := skipWhile_steps isDigitPart hb
  obtain ⟨kind, fraction, hfraction, hkind, hle', hb⟩ := lexFraction_reaches hb
  rw [lexDecimal, hdigits, Option.bind_eq_bind, Option.bind_some, hfraction,
    Option.bind_eq_bind, Option.bind_some]
  exact (lexExponent_reaches hkind hb).mono (hle.trans hle')

theorem lexNumber_reaches (first : Char) (hb : Boundary text offset) :
    ReachesToken text offset (lexNumber text first offset) := by
  unfold lexNumber
  split
  case isFalse => exact lexDecimal_reaches hb
  case isTrue h =>
    obtain ⟨radix, hradix, hnext⟩ := charAt_of_boundary hb h.2
    rw [hradix, Option.bind_eq_bind, Option.bind_some]
    split
    · obtain ⟨stop, hstop, hle, hb'⟩ :=
        skipWhile_steps (fun next => next.isAlphanum || next == '_') hnext
      rw [hstop]
      exact ⟨.intLit, stop, rfl, by decide, by omega, hb'⟩
    · exact lexDecimal_reaches hb

end Scan

theorem onePunct_utf8Size {c : Char} {p : Punct} (h : onePunct c = some p) : c.utf8Size = 1 := by
  unfold onePunct at h
  split at h
  case h_27 => cases h
  all_goals rfl

theorem punct_starts {rest : List Char} {len : ℕ} (h : punct rest = some (kind, len)) :
    ∃ start after, rest = start ++ after ∧ size start = len ∧ 0 < len ∧ kind ≠ .eof := by
  unfold punct at h
  split at h
  case h_1 text p hfind =>
    obtain ⟨rfl, rfl⟩ := Prod.mk.inj (Option.some.inj h)
    have hstart := List.find?_some hfind
    obtain ⟨after, hafter⟩ := List.isPrefixOf_iff_prefix.mp hstart
    have hpos : twoPunct.all (0 < size ·.1) = true := by decide
    have := of_decide_eq_true (List.all_eq_true.mp hpos _ (List.mem_of_find?_eq_some hfind))
    exact ⟨text, after, hafter.symm, rfl, this, nofun⟩
  case h_2 =>
    cases rest with
    | nil => cases h
    | cons c rest =>
      have hone : (onePunct c).bind (fun p => some (TokenKind.punct p, 1)) = some (kind, len) := h
      obtain ⟨p, hp, h⟩ := Option.bind_eq_some_iff.mp hone
      obtain ⟨rfl, rfl⟩ := Prod.mk.inj (Option.some.inj h)
      exact ⟨[c], rest, rfl, onePunct_utf8Size hp, Nat.one_pos, nofun⟩

section Tokens
variable (classes : CharClasses) (source : SourceFile)

theorem lexToken_reaches {start : ℕ} {rest : List Char} {ch : Char}
    (h : sliceFrom source.text start = some (ch :: rest)) :
    ∃ kind stop found, lexToken classes source start (ch :: rest) ch = some (kind, stop, found) ∧
      kind ≠ .eof ∧ start < stop ∧ Boundary source.text stop := by
  have hpos := ch.utf8Size_pos
  have hnext : Boundary source.text (start + ch.utf8Size) := .add [ch] h
  have two {a b : Char} (hab : [a, b].isPrefixOf (ch :: rest) = true)
      (hsize : size [a, b] = 2) : Boundary source.text (start + 2) := by
    obtain ⟨after, hafter⟩ := List.isPrefixOf_iff_prefix.mp hab
    rw [← hafter] at h
    rw [← hsize]
    exact .add [a, b] h
  unfold lexToken
  dsimp only
  split
  case isTrue =>
    obtain ⟨stop, hstop, hle, hb⟩ := skipWhile_steps classes.isWhitespace hnext
    rw [hstop]
    exact ⟨_, stop, _, rfl, nofun, by omega, hb⟩
  split
  case isTrue hline =>
    obtain ⟨stop, hstop, hle, hb⟩ := skipLine_reaches (n := steps source.text) (two hline rfl)
      (by unfold steps; omega)
    rw [hstop]
    exact ⟨_, stop, _, rfl, nofun, by omega, hb⟩
  split
  case isTrue hblock =>
    obtain ⟨stop, hstop, hle, hb, hclosed⟩ := skipBlock_reaches (n := steps source.text)
      (two hblock rfl) (by unfold steps; omega)
    rw [hstop]
    refine ⟨_, _, _, rfl, nofun, ?_, ?_⟩
    · split <;> omega
    · split
      case isTrue hlt => exact hclosed (of_decide_eq_true hlt)
      case isFalse => exact hb
  split
  case isTrue =>
    obtain ⟨stop, hstop, hle, hb⟩ := skipWhile_steps (isIdentContinue classes) hnext
    obtain ⟨ident, hident⟩ := Utf8.slice_of_boundary (Boundary.of_sliceFrom h) hb (by omega)
    rw [hstop, Option.bind_eq_bind, Option.bind_some, hident, Option.bind_eq_bind, Option.bind_some]
    refine ⟨_, stop, _, rfl, ?_, by omega, hb⟩
    cases Keyword.fromIdent ident <;> nofun
  split
  case isTrue =>
    obtain ⟨kind, stop, hstop, hkind, hle, hb⟩ := lexNumber_reaches ch hnext
    rw [hstop]
    exact ⟨kind, stop, _, rfl, hkind, by omega, hb⟩
  split
  case isTrue hquote =>
    subst hquote
    obtain ⟨stop, terminated, hstop, hle, hb⟩ := skipQuoted_reaches '"' (n := steps source.text)
      hnext (by unfold steps; omega)
    have hstop' : skipQuoted source.text '"' (steps source.text) (start + 1) =
      some (stop, terminated) := hstop
    rw [hstop']
    exact ⟨_, stop, _, rfl, nofun, by omega, hb⟩
  split
  case isTrue hquote =>
    subst hquote
    obtain ⟨stop, terminated, hstop, hle, hb⟩ := skipQuoted_reaches '\'' (n := steps source.text)
      hnext (by unfold steps; omega)
    have hstop' : skipQuoted source.text '\'' (steps source.text) (start + 1) =
      some (stop, terminated) := hstop
    rw [hstop']
    exact ⟨_, stop, _, rfl, nofun, by omega, hb⟩
  cases hpunct : punct (ch :: rest) with
  | none => exact ⟨_, _, _, rfl, nofun, by dsimp only [Option.getD]; omega, hnext⟩
  | some found =>
    obtain ⟨kind, len⟩ := found
    obtain ⟨begin, after, hrest, hlen, hpos', hkind⟩ := punct_starts hpunct
    rw [hrest] at h
    exact ⟨kind, start + len, _, rfl, hkind, by omega, hlen ▸ .add begin h⟩

/-- Tokens that follow one another from an offset to another one. -/
def Tiles (source : SourceFile) : ℕ → List (Token Span) → ℕ → Prop
  | start, [], stop => start = stop
  | start, token :: tokens, stop =>
    token.kind ≠ .eof ∧ token.span.start < token.span.stop ∧ Boundary source.text token.span.stop ∧
      token.span = span source start token.span.stop ∧ Tiles source token.span.stop tokens stop

variable {source} {tokens : List (Token Span)} {start stop : ℕ}

theorem Tiles.snoc (h : Tiles source start tokens stop) (hkind : kind ≠ .eof) {next : ℕ}
    (hlt : stop < next) (hb : Boundary source.text next) :
    Tiles source start (tokens ++ [⟨kind, span source stop next⟩]) next := by
  induction tokens generalizing start with
  | nil =>
    obtain rfl : start = stop := h
    exact ⟨hkind, hlt, hb, rfl, rfl⟩
  | cons token tokens ih =>
    obtain ⟨htoken, hspan, hb', hstart, hrest⟩ := h
    exact ⟨htoken, hspan, hb', hstart, ih hrest⟩

theorem lexLoop_tiles {n offset : ℕ} (diagnostics : List Diagnostic)
    (h : Tiles source 0 tokens offset) (hb : Boundary source.text offset)
    (hn : size source.text - offset < n) :
    ∃ tokens' diagnostics', lexLoop classes source n offset (tokens, diagnostics) =
      some (tokens', diagnostics') ∧ Tiles source 0 tokens' (size source.text) := by
  induction n generalizing offset tokens diagnostics with
  | zero => exact absurd hn (Nat.not_lt_zero _)
  | succ n ih =>
    rw [lexLoop]
    split
    case isTrue hlt =>
      obtain ⟨ch, rest, hrest, -⟩ := hb.next hlt
      obtain ⟨kind, stop, found, htoken, hkind, hstop, hb'⟩ := lexToken_reaches classes source hrest
      rw [hrest, Option.bind_eq_bind, Option.bind_some]
      dsimp only [List.head?_cons]
      rw [htoken, Option.bind_eq_bind, Option.bind_some]
      have hfuel : size source.text - stop < n := by omega
      exact ih _ (h.snoc hkind hstop hb') hb' hfuel
    case isFalse hge =>
      obtain rfl : offset = size source.text := Nat.le_antisymm hb.le (Nat.le_of_not_lt hge)
      exact ⟨tokens, diagnostics, rfl, h⟩

/-- The tokens of a text: those before the last one are not empty and not the end of the file, each
begins where the one before it ends, and their slices are the text. -/
structure Tiling (source : SourceFile) (tokens : List (Token Span)) : Prop where
  last : tokens.getLast? =
    some ⟨.eof, span source (size source.text) (size source.text)⟩
  nonempty : ∀ token ∈ tokens.dropLast, token.kind ≠ .eof ∧ token.span.start < token.span.stop
  first : tokens.head?.map (·.span.start) = some 0
  contiguous : tokens.IsChain fun token next => token.span.stop = next.span.start
  boundaries : ∀ token ∈ tokens, token.span.source = source.id ∧
    Boundary source.text token.span.start ∧ Boundary source.text token.span.stop
  slices : ∃ pieces, tokens.mapM (fun token =>
    Utf8.slice source.text token.span.start token.span.stop) = some pieces ∧
      pieces.flatten = source.text

section
variable (h : Tiles source start tokens stop)
include h

theorem Tiles.exists_pieces (hb : Boundary source.text start) :
    ∃ pieces rest, tokens.mapM (fun token =>
        Utf8.slice source.text token.span.start token.span.stop) = some pieces ∧
      sliceFrom source.text start = some (pieces.flatten ++ rest) ∧
      sliceFrom source.text stop = some rest := by
  induction tokens generalizing start with
  | nil =>
    obtain rfl : start = stop := h
    obtain ⟨rest, hrest⟩ := sliceFrom_of_boundary hb
    exact ⟨[], rest, rfl, hrest, hrest⟩
  | cons token tokens ih =>
    obtain ⟨-, hlt, hb', hspan, hrest⟩ := h
    obtain ⟨pieces, rest, hpieces, hfrom, hstop⟩ := ih hrest hb'
    have hstart : token.span.start = start := by rw [hspan]; rfl
    rw [hstart] at hlt
    obtain ⟨before, mid, after, htext, hbefore, hmid⟩ := Utf8.exists_between hb hb' hlt.le
    have hslice : Utf8.slice source.text token.span.start token.span.stop = some mid := by
      rw [hstart, htext, ← hbefore, ← hmid]
      exact Utf8.slice_size before mid after
    have hafter : sliceFrom source.text token.span.stop = some after := by
      rw [htext, ← hmid, ← Utf8.size_append]
      exact Utf8.sliceFrom_size _ _
    obtain rfl : pieces.flatten ++ rest = after := Option.some.inj (hfrom.symm.trans hafter)
    refine ⟨mid :: pieces, rest, ?_, ?_, hstop⟩
    · rw [List.mapM_cons, hslice, hpieces]
      rfl
    · rw [htext, ← hbefore, List.append_assoc, Utf8.sliceFrom_size, List.flatten_cons,
        List.append_assoc]

theorem Tiles.boundaries (hb : Boundary source.text start) :
    ∀ token ∈ tokens, token.span.source = source.id ∧
      Boundary source.text token.span.start ∧ Boundary source.text token.span.stop := by
  induction tokens generalizing start with
  | nil => exact nofun
  | cons token tokens ih =>
    obtain ⟨-, -, hb', hspan, hrest⟩ := h
    intro other hother
    obtain rfl | hother := List.mem_cons.mp hother
    · refine ⟨by rw [hspan]; rfl, ?_, hb'⟩
      rw [hspan]
      exact hb
    · exact ih hrest hb' other hother

theorem Tiles.nonempty :
    ∀ token ∈ tokens, token.kind ≠ .eof ∧ token.span.start < token.span.stop := by
  induction tokens generalizing start with
  | nil => exact nofun
  | cons token tokens ih =>
    obtain ⟨hkind, hlt, -, -, hrest⟩ := h
    intro other hother
    obtain rfl | hother := List.mem_cons.mp hother
    · exact ⟨hkind, hlt⟩
    · exact ih hrest other hother

theorem Tiles.head {last : Token Span} (hlast : last.span.start = stop) :
    ((tokens ++ [last]).head?.map (·.span.start)) = some start := by
  cases tokens with
  | nil =>
    obtain rfl : start = stop := h
    exact congrArg some hlast
  | cons token tokens =>
    obtain ⟨-, -, -, hspan, -⟩ := h
    have hstart : token.span.start = start := by rw [hspan]; rfl
    exact congrArg some hstart

theorem Tiles.contiguous {last : Token Span} (hlast : last.span.start = stop) :
    (tokens ++ [last]).IsChain fun token next => token.span.stop = next.span.start := by
  induction tokens generalizing start with
  | nil => exact List.isChain_singleton _
  | cons token tokens ih =>
    obtain ⟨-, -, -, -, hrest⟩ := h
    rw [List.cons_append, List.isChain_cons]
    refine ⟨fun next hnext => ?_, ih hrest⟩
    have hhead := hrest.head hlast
    rw [Option.mem_def.mp hnext] at hhead
    exact (Option.some.inj hhead).symm

end

theorem Tiles.tiling (h : Tiles source 0 tokens (size source.text)) :
    Tiling source (tokens ++ [⟨.eof, span source (size source.text) (size source.text)⟩]) := by
  have hfull := Boundary.full source.text
  obtain ⟨pieces, rest, hpieces, hfrom, hstop⟩ := h.exists_pieces (.zero _)
  have hend : sliceFrom source.text (size source.text) = some [] := by
    simpa using Utf8.sliceFrom_size source.text []
  obtain rfl : rest = [] := Option.some.inj (hstop.symm.trans hend)
  have hlast : Utf8.slice source.text (size source.text) (size source.text) = some [] := by
    simpa using Utf8.slice_size source.text [] []
  refine ⟨List.getLast?_concat, ?_, h.head rfl, h.contiguous rfl, ?_, pieces ++ [[]], ?_, ?_⟩
  · rw [List.dropLast_concat]
    exact h.nonempty
  · intro token htoken
    obtain htoken | htoken := List.mem_append.mp htoken
    · exact h.boundaries (.zero _) token htoken
    · rw [List.mem_singleton.mp htoken]
      exact ⟨rfl, hfull, hfull⟩
  · rw [List.mapM_append, hpieces]
    dsimp only [span]
    rw [List.mapM_cons, hlast]
    rfl
  · have hzero : sliceFrom source.text 0 = some source.text := by
      cases source.text <;> rfl
    rw [List.flatten_append]
    exact Option.some.inj (hfrom.symm.trans hzero)

end Tokens

/-- No text makes the lexer panic, and none of it is lost. -/
theorem lex_tiling (classes : CharClasses) (source : SourceFile) :
    ∃ tokens diagnostics, lex classes source = some (⟨source.id, tokens⟩, diagnostics) ∧
      Tiling source tokens := by
  have hfuel : size source.text - 0 < steps source.text := by unfold steps; omega
  have hstart : Tiles source 0 [] 0 := rfl
  obtain ⟨tokens, diagnostics, hloop, htiles⟩ := lexLoop_tiles classes [] hstart (.zero _) hfuel
  refine ⟨_, diagnostics, ?_, htiles.tiling⟩
  rw [lex, hloop]
  rfl

end Lexer
end EtasFrontend.Syntax
