import Mathlib.Data.List.Basic
import Mathlib.Data.Option.Basic

/-! The values of string and character literals. A text is the list of its characters. -/
namespace EtasFrontend.Syntax

/-- `str::replace` of a pattern that is not empty: its matches from left to right, which do not
overlap. The count is of the characters of a match that are still to be passed. -/
def replaceAfter (pattern replacement : List Char) : ℕ → List Char → List Char
  | _, [] => []
  | skip + 1, _ :: rest => replaceAfter pattern replacement skip rest
  | 0, c :: rest =>
    if pattern.isPrefixOf (c :: rest) then
      replacement ++ replaceAfter pattern replacement (pattern.length - 1) rest
    else c :: replaceAfter pattern replacement 0 rest

def replace (pattern replacement text : List Char) : List Char := replaceAfter pattern replacement 0 text

def stripPrefix (c : Char) : List Char → Option (List Char)
  | d :: rest => if d = c then some rest else none
  | [] => none

def stripSuffix (c : Char) (text : List Char) : Option (List Char) :=
  if text.getLast? = some c then some text.dropLast else none

def unquoteString (text : List Char) : List Char :=
  let text := (stripPrefix '"' text).getD text
  let text := (stripSuffix '"' text).getD text
  let text := replace ['\\', '"'] ['"'] text
  let text := replace ['\\', 'n'] ['\n'] text
  let text := replace ['\\', 'r'] ['\r'] text
  replace ['\\', 't'] ['\t'] text

def unquoteChar (text : List Char) : Option Char := do
  match ← stripSuffix '\'' (← stripPrefix '\'' text) with
  | ['\\', 'n'] => some '\n'
  | ['\\', 'r'] => some '\r'
  | ['\\', 't'] => some '\t'
  | ['\\', '\''] => some '\''
  | ['\\', '\\'] => some '\\'
  | [value] => some value
  | _ => none

/-! Literals that are written element by element. -/

inductive Escape where
  | newline | carriageReturn | tab | backslash
  deriving DecidableEq

def Escape.letter : Escape → Char
  | .newline => 'n'
  | .carriageReturn => 'r'
  | .tab => 't'
  | .backslash => '\\'

def Escape.value : Escape → Char
  | .newline => '\n'
  | .carriageReturn => '\r'
  | .tab => '\t'
  | .backslash => '\\'

inductive StringElement where
  | plain (c : Char) (quote : c ≠ '"') (backslash : c ≠ '\\')
  | escape (kind : Escape)
  deriving DecidableEq

def StringElement.text : StringElement → List Char
  | .plain c _ _ => [c]
  | .escape kind => ['\\', kind.letter]

def StringElement.value : StringElement → Char
  | .plain c _ _ => c
  | .escape kind => kind.value

/-- The elements between double quotes. -/
def quoted (elements : List StringElement) : List Char :=
  '"' :: elements.flatMap StringElement.text ++ ['"']

/-- One replacement, as a scan: a backslash and a letter become a character. -/
def scan (control : Char → Option Char) : List Char → List Char
  | [] => []
  | [c] => [c]
  | c :: d :: rest =>
    match if c = '\\' then control d else none with
    | some value => value :: scan control rest
    | none => c :: scan control (d :: rest)

section
variable {control control' : Char → Option Char}

theorem scan_cons {c : Char} (hc : c ≠ '\\') (rest : List Char) :
    scan control (c :: rest) = c :: scan control rest := by
  cases rest with
  | nil => rfl
  | cons d rest => simp only [scan, if_neg hc]

theorem scan_backslash_some {d value : Char} (h : control d = some value) (rest : List Char) :
    scan control ('\\' :: d :: rest) = value :: scan control rest := by
  simp only [scan, if_true, h]

theorem scan_backslash_none {d : Char} (h : control d = none) (rest : List Char) :
    scan control ('\\' :: d :: rest) = '\\' :: scan control (d :: rest) := by
  simp only [scan, if_true, h]

theorem scan_eq_self {text : List Char} (h : ∀ c ∈ text, control c = none) :
    scan control text = text := by
  induction text with
  | nil => rfl
  | cons c rest ih =>
    have hrest := ih fun d hd => h d (List.mem_cons_of_mem _ hd)
    cases rest with
    | nil => rfl
    | cons d rest =>
      have hd : control d = none := h d (List.mem_cons_of_mem _ List.mem_cons_self)
      simp only [scan, hd, ite_self, hrest]

variable (control) in
theorem scan_head (c : Char) (rest : List Char) :
    ∃ head tail, scan control (c :: rest) = head :: tail ∧
      (head = c ∨ ∃ d, control d = some head) := by
  cases rest with
  | nil => exact ⟨c, [], rfl, .inl rfl⟩
  | cons d rest =>
    unfold scan
    split
    · next value h =>
      refine ⟨value, _, rfl, .inr ⟨d, ?_⟩⟩
      split at h
      · exact h
      · cases h
    · exact ⟨c, _, rfl, .inl rfl⟩

theorem scan_scan (hvalue : ∀ c value, control c = some value → value ≠ '\\' ∧ control' value = none)
    (hbackslash : control' '\\' = none) (text : List Char) :
    scan control' (scan control text) = scan (fun c => (control c).or (control' c)) text := by
  induction text using scan.induct control with
  | case1 => rfl
  | case2 c => rfl
  | case3 c d rest value h ih =>
    obtain ⟨rfl, hd⟩ : c = '\\' ∧ control d = some value := by
      split at h
      · exact ⟨‹_›, h⟩
      · cases h
    rw [scan_backslash_some hd, scan_cons (hvalue d value hd).1, ih,
      scan_backslash_some (by rw [hd, Option.some_or])]
  | case4 c d rest h ih =>
    by_cases hc : c = '\\'
    · subst hc
      rw [if_pos rfl] at h
      rw [scan_backslash_none h]
      cases hd : control' d with
      | some value =>
        have hne : d ≠ '\\' := by
          rintro rfl
          rw [hbackslash] at hd
          cases hd
        rw [scan_cons hne, scan_cons hne, scan_cons hne, List.cons.injEq] at ih
        rw [scan_cons hne, scan_backslash_some hd, ih.2,
          scan_backslash_some (by rw [h, hd, Option.none_or])]
      | none =>
        obtain ⟨head, tail, htext, hhead⟩ := scan_head control d rest
        have hnone : control' head = none := by
          rcases hhead with rfl | ⟨letter, hletter⟩
          · exact hd
          · exact (hvalue letter head hletter).2
        rw [htext, scan_backslash_none hnone, ← htext, ih,
          scan_backslash_none (by rw [h, hd, Option.none_or])]
    · rw [scan_cons hc, scan_cons hc, scan_cons hc, ih]

theorem replace_eq_scan {letter value : Char} (hletter : letter ≠ '\\') (text : List Char) :
    replace ['\\', letter] [value] text =
      scan (fun c => if c = letter then some value else none) text := by
  unfold replace
  induction text using scan.induct fun c => if c = letter then some value else none with
  | case1 => rfl
  | case2 c => simp [replaceAfter, scan, List.isPrefixOf]
  | case3 c d rest value' h ih =>
    obtain ⟨rfl, rfl, rfl⟩ : c = '\\' ∧ d = letter ∧ value = value' := by
      split at h
      · split at h
        · cases h
          exact ⟨‹_›, ‹_›, rfl⟩
        · cases h
      · cases h
    rw [scan_backslash_some (if_pos rfl), ← ih, replaceAfter, if_pos (by simp [List.isPrefixOf])]
    rfl
  | case4 c d rest h ih =>
    have hmatch : ¬ (c = '\\' ∧ d = letter) := by
      rintro ⟨rfl, rfl⟩
      simp at h
    simp only [scan, h]
    rw [← ih, replaceAfter, if_neg]
    intro hhead
    simp only [List.isPrefixOf, Bool.and_true, Bool.and_eq_true, beq_iff_eq] at hhead
    exact hmatch ⟨hhead.1.symm, hhead.2.symm⟩

end

/-- What the replacements decode after a backslash. -/
def control (c : Char) : Option Char :=
  if c = 'n' then some '\n' else if c = 'r' then some '\r' else if c = 't' then some '\t' else none

theorem stripPrefix_cons (c : Char) (rest : List Char) : stripPrefix c (c :: rest) = some rest :=
  if_pos rfl

theorem stripSuffix_append (c : Char) (text : List Char) :
    stripSuffix c (text ++ [c]) = some text := by
  rw [stripSuffix, List.getLast?_concat, if_pos rfl, List.dropLast_concat]

theorem unquoteString_eq_scan {text : List Char} (h : '"' ∉ text) :
    unquoteString ('"' :: text ++ ['"']) = scan control text := by
  have hquote : replace ['\\', '"'] ['"'] text = text := by
    rw [replace_eq_scan (by decide)]
    refine scan_eq_self fun c hc => if_neg ?_
    rintro rfl
    exact h hc
  simp only [unquoteString, List.cons_append, stripPrefix_cons, Option.getD_some,
    stripSuffix_append, hquote]
  rw [replace_eq_scan (by decide), replace_eq_scan (by decide), replace_eq_scan (by decide),
    scan_scan (by simp) (by decide), scan_scan (by simp) (by decide)]
  congr 1
  funext c
  unfold control
  grind

set_option linter.auxLemma false in
theorem unquoteChar_text (element : StringElement) :
    unquoteChar ('\'' :: element.text ++ ['\'']) = some element.value := by
  cases element with
  | plain c hquote hbackslash =>
    have hstrip : stripSuffix '\'' [c, '\''] = some [c] := stripSuffix_append '\'' [c]
    unfold unquoteChar
    rw [StringElement.text, StringElement.value, List.cons_append, List.singleton_append,
      stripPrefix_cons, Option.bind_eq_bind, Option.bind_some, hstrip, Option.bind_some]
    -- the match tests the first character for a backslash
    unfold unquoteChar.match_1
    exact dif_neg hbackslash
  | escape kind => cases kind <;> rfl

/-- The backslashes and control characters of a text. -/
def weight (text : List Char) : ℕ := text.countP (· ∈ ['\\', '\n', '\r', '\t'])

theorem weight_scan_backslash (rest : List Char) :
    weight (scan control ('\\' :: rest)) = 1 + weight (scan control rest) := by
  cases rest with
  | nil => rfl
  | cons d rest =>
    cases hd : control d with
    | none =>
      rw [scan_backslash_none hd]
      simp [weight, Nat.add_comm]
    | some value =>
      have hne : d ≠ '\\' := by
        rintro rfl
        cases hd
      have hvalue : value ∈ ['\\', '\n', '\r', '\t'] ∧ d ∉ ['\\', '\n', '\r', '\t'] := by
        unfold control at hd
        split at hd
        · next h => cases hd; subst h; decide
        · split at hd
          · next h => cases hd; subst h; decide
          · split at hd
            · next h => cases hd; subst h; decide
            · cases hd
      rw [scan_backslash_some hd, scan_cons hne, weight, weight, List.countP_cons_of_pos,
        List.countP_cons_of_neg, Nat.add_comm]
      · simpa using hvalue.2
      · simpa using hvalue.1

theorem scan_element {element : StringElement} (h : element ≠ .escape .backslash)
    (rest : List Char) :
    scan control (element.text ++ rest) = element.value :: scan control rest := by
  cases element with
  | plain c hquote hbackslash => exact scan_cons hbackslash rest
  | escape kind =>
    cases kind with
    | backslash => exact absurd rfl h
    | newline | carriageReturn | tab => exact scan_backslash_some (by decide) rest

theorem scan_elements {elements : List StringElement} (h : .escape .backslash ∉ elements) :
    scan control (elements.flatMap StringElement.text) = elements.map StringElement.value := by
  induction elements with
  | nil => rfl
  | cons element elements ih =>
    rw [List.mem_cons, not_or] at h
    rw [List.flatMap_cons, List.map_cons, scan_element (Ne.symm h.1), ih h.2]

theorem weight_scan_elements (elements : List StringElement) :
    weight (scan control (elements.flatMap StringElement.text)) =
      weight (elements.map StringElement.value) + elements.count (.escape .backslash) := by
  induction elements with
  | nil => rfl
  | cons element elements ih =>
    rw [List.flatMap_cons, List.map_cons]
    by_cases h : element = .escape .backslash
    · subst h
      have htext : StringElement.text (.escape .backslash) ++
          elements.flatMap StringElement.text =
            '\\' :: '\\' :: elements.flatMap StringElement.text := rfl
      rw [htext, weight_scan_backslash, weight_scan_backslash, ih, List.count_cons_self]
      have hvalue : weight (StringElement.value (.escape .backslash) ::
          elements.map StringElement.value) = weight (elements.map StringElement.value) + 1 :=
        List.countP_cons_of_pos (by decide)
      omega
    · rw [scan_element h, List.count_cons_of_ne h]
      simp only [weight, List.countP_cons] at ih ⊢
      omega

theorem quote_notMem_text (elements : List StringElement) :
    '"' ∉ elements.flatMap StringElement.text := by
  intro h
  obtain ⟨element, -, h⟩ := List.mem_flatMap.mp h
  cases element with
  | plain c hquote hbackslash => exact hquote (List.mem_singleton.mp h).symm
  | escape kind => cases kind <;> revert h <;> decide

/-- A string is the sequence of its elements' values exactly when it escapes no backslash. -/
theorem unquoteString_elements_iff (elements : List StringElement) :
    elements.mapM (fun element => unquoteChar ('\'' :: element.text ++ ['\''])) =
        some (unquoteString (quoted elements)) ↔
      .escape .backslash ∉ elements := by
  have hvalues : elements.mapM (fun element => unquoteChar ('\'' :: element.text ++ ['\''])) =
      some (elements.map StringElement.value) := by
    simp only [unquoteChar_text]
    exact List.mapM_pure
  rw [hvalues, quoted, unquoteString_eq_scan (quote_notMem_text elements), Option.some.injEq]
  constructor
  · intro h hmem
    have hweight := weight_scan_elements elements
    rw [← h] at hweight
    have := List.count_pos_iff.mpr hmem
    omega
  · intro h
    exact (scan_elements h).symm

/-- An escaped backslash before an `n` is decoded as a backslash and a line break. -/
theorem unquoteString_backslash :
    ([.escape .backslash, .plain 'n' (by decide) (by decide)] : List StringElement).mapM
        (fun element => unquoteChar ('\'' :: element.text ++ ['\''])) = some ['\\', 'n'] ∧
      unquoteString (quoted [.escape .backslash, .plain 'n' (by decide) (by decide)]) =
        ['\\', '\n'] := by
  decide

end EtasFrontend.Syntax
