import EtasFrontend.Syntax.Lookahead
import Mathlib.Data.List.Induction
import Mathlib.Data.Nat.Basic

/-! The predicates by which the parser looks ahead, compared with what they look for. -/
namespace EtasFrontend.Syntax
open Lib

variable {Span : Type} {cursor : Cursor Span}

/-! The tokens ahead. -/

variable {kinds : List TokenKind}

namespace Cursor

theorem nth_kind_drop (ends : cursor.EndsWithEof) (i : ℕ) :
    (cursor.nth i).kind =
      (((cursor.tokens.drop cursor.position).map (·.kind)).drop i).headD .eof := by
  by_cases h : cursor.position + i < cursor.tokens.length
  · have hindex : cursor.index i = cursor.position + i := by
      unfold index
      omega
    simp [nth, hindex, List.headD_eq_head?_getD, List.getElem?_eq_getElem h]
  · have hindex : cursor.index i = cursor.tokens.length - 1 := by
      unfold index
      omega
    have hnone : cursor.tokens[cursor.position + i]? = none :=
      List.getElem?_eq_none (Nat.le_of_not_lt h)
    rw [EndsWithEof, List.getLast_eq_getElem] at ends
    simp [nth, hindex, List.headD_eq_head?_getD, hnone, ends]

theorem headD_drop_takeWhile {i : ℕ} (hi : i ≤ (kinds.takeWhile (· != .eof)).length) :
    (kinds.drop i).headD .eof = ((kinds.takeWhile (· != .eof)).drop i).headD .eof := by
  induction kinds generalizing i with
  | nil => rfl
  | cons kind kinds ih =>
    by_cases hkind : kind = .eof
    · subst hkind
      simp only [bne_self_eq_false, Bool.false_eq_true, not_false_eq_true, List.takeWhile_cons_of_neg,
        List.length_nil, Nat.le_zero] at hi
      simp [hi]
    · have htake : (kind :: kinds).takeWhile (· != .eof) = kind :: kinds.takeWhile (· != .eof) :=
        List.takeWhile_cons_of_pos (by simpa using hkind)
      rw [htake] at hi ⊢
      cases i with
      | zero => rfl
      | succ i => exact ih (Nat.le_of_succ_le_succ hi)

theorem nth_kind (ends : cursor.EndsWithEof) {i : ℕ} (hi : i ≤ cursor.ahead.length) :
    (cursor.nth i).kind = (cursor.ahead.drop i).headD .eof :=
  (nth_kind_drop ends i).trans (headD_drop_takeWhile hi)

theorem ne_eof_of_mem_ahead {kind : TokenKind} (h : kind ∈ cursor.ahead) : kind ≠ .eof := by
  have := List.all_eq_true.mp List.all_takeWhile kind h
  simpa using this

theorem lookahead_eq {σ : Type} {step : σ → TokenKind → Reading σ TokenKind}
    (stops : ∀ s, step s .eof = .answer fun _ => false) (ends : cursor.EndsWithEof) {n idx : ℕ}
    {state : σ} (hidx : idx ≤ cursor.ahead.length) :
    cursor.lookahead step n idx state =
      Lib.lookahead .eof step n state (cursor.ahead.drop idx) := by
  induction n generalizing idx state with
  | zero => rfl
  | succ n ih =>
    rw [lookahead, Lib.lookahead, nth_kind ends hidx]
    by_cases hlt : idx < cursor.ahead.length
    · rw [List.tail_drop, ← nth_kind ends hlt]
      cases step state ((cursor.ahead.drop idx).headD .eof) with
      | goOn state => exact ih hlt
      | answer holds => rfl
    · rw [List.drop_eq_nil_of_le (by omega)]
      simp [stops]

end Cursor

/-! What the predicates look for. A delimiter is closed by its own kind only. -/

def parens (o c : TokenKind) : Prop := o = .punct .lParen ∧ c = .punct .rParen

def brackets (o c : TokenKind) : Prop :=
  o = .punct .lBracket ∧ c = .punct .rBracket ∨ o = .punct .lt ∧ c = .punct .gt

/-- Brackets of either kind, also of two kinds. -/
def anyBrackets (o c : TokenKind) : Prop :=
  (o = .punct .lBracket ∨ o = .punct .lt) ∧ (c = .punct .rBracket ∨ c = .punct .gt)

def delimiters (o c : TokenKind) : Prop :=
  o = .punct .lParen ∧ c = .punct .rParen ∨ o = .punct .lBracket ∧ c = .punct .rBracket ∨
    o = .punct .lBrace ∧ c = .punct .rBrace

def Nested (pair : TokenKind → TokenKind → Prop) (kinds : List TokenKind) : Prop :=
  Balanced pair (fun _ => True) kinds

/-- The parenthesis at the cursor is closed by a matching one, with `=>` after it. -/
def LambdaParamListFollows (ahead : List TokenKind) : Prop :=
  ∃ inner rest, ahead = .punct .lParen :: (inner ++ .punct .rParen :: .punct .fatArrow :: rest) ∧
    Nested parens inner

/-- The matching close of the group at the cursor has `punct` after it. -/
def GroupFollowedBy (punct : Punct) (ahead : List TokenKind) : Prop :=
  ∃ o inner c rest, ahead = o :: (inner ++ c :: .punct punct :: rest) ∧ brackets o c ∧
    Nested brackets inner

/-- What stands before the bracket of an open slice: a parenthesis and what it encloses, with a
comma that is in no group of its own. -/
def OpensSlice (kinds : List TokenKind) : Prop :=
  ∃ left right, kinds = .punct .lParen :: (left ++ .punct .comma :: right) ∧
    Nested delimiters left ∧ Nested delimiters right

/-- The parenthesis at the cursor is closed by a bracket after a top-level comma. -/
def OpenSliceFollows (ahead : List TokenKind) : Prop :=
  ∃ kinds rest, ahead = kinds ++ .punct .rBracket :: rest ∧ OpensSlice kinds

/-- A top-level `=` occurs before a top-level `;` and before the end of the enclosing group. -/
def AssignmentFollows (ahead : List TokenKind) : Prop :=
  ∃ target rest, ahead = target ++ .punct .eq :: rest ∧
    Balanced delimiters (· ≠ .punct .semi) target

/-! Groups found by their depth. -/

section Group
variable {opens closes : TokenKind → Bool} {followed : TokenKind}

theorem reads_groupStep (hkinds : ∀ kind ∈ kinds, kind ≠ .eof) (d : ℕ) :
    reads (groupStep opens closes followed) (d + 1) kinds =
      (kinds.foldlM (levelStep opens closes fun _ => True) d).map (· + 1) := by
  induction kinds generalizing d with
  | nil => rfl
  | cons kind kinds ih =>
    have hkind := hkinds kind List.mem_cons_self
    have ih := fun d => ih (fun k hk => hkinds k (List.mem_cons_of_mem _ hk)) d
    rw [reads_cons, List.foldlM_cons, groupStep, levelStep]
    by_cases hopen : opens kind = true
    · rw [if_pos hopen, if_pos hopen]
      exact ih (d + 1)
    · rw [if_neg hopen, if_neg hopen]
      by_cases hclose : closes kind = true
      · rw [if_pos hclose, if_pos hclose]
        cases d with
        | zero => rfl
        | succ d => exact ih d
      · rw [if_neg hclose, if_neg hclose, if_neg hkind, if_neg (by simp)]
        exact ih d

/-- A group and the symbol that closes it, with `followed` after them. -/
def GroupEnds (pair : TokenKind → TokenKind → Prop) (followed : TokenKind)
    (before : List TokenKind) (c : TokenKind) (rest : List TokenKind) : Prop :=
  ∃ o inner rest', before = o :: inner ∧ rest = followed :: rest' ∧ pair o c ∧ Nested pair inner

variable {pair : TokenKind → TokenKind → Prop}

theorem groupEnds_cons {o c : TokenKind} {inner rest : List TokenKind} :
    GroupEnds pair followed (o :: inner) c (followed :: rest) ↔ pair o c ∧ Nested pair inner := by
  constructor
  · rintro ⟨_, _, _, h, -, hpair, hnested⟩
    obtain ⟨rfl, rfl⟩ := List.cons.inj h
    exact ⟨hpair, hnested⟩
  · rintro ⟨hpair, hnested⟩
    exact ⟨o, inner, rest, rfl, rfl, hpair, hnested⟩

theorem exists_groupEnds_iff {word : List TokenKind} :
    (∃ before c rest, word = before ++ c :: rest ∧ GroupEnds pair followed before c rest) ↔
      ∃ o inner c rest, word = o :: (inner ++ c :: followed :: rest) ∧ pair o c ∧
        Nested pair inner := by
  constructor
  · rintro ⟨_, c, _, hword, o, inner, rest, rfl, rfl, h⟩
    exact ⟨o, inner, c, rest, hword, h⟩
  · rintro ⟨o, inner, c, rest, hword, h⟩
    exact ⟨o :: inner, c, followed :: rest, hword, groupEnds_cons.mpr h⟩

/-- The scan ends at the symbol that closes the group it began with. -/
theorem saysYes_groupStep (disjoint : ∀ x, opens x = true → closes x = false)
    (hfollowed : followed ≠ .eof) {o : TokenKind} (ho : opens o = true)
    {before rest tail : List TokenKind} {x : TokenKind} (hword : o :: tail = before ++ x :: rest)
    (hkinds : ∀ kind ∈ before ++ x :: rest, kind ≠ .eof) (hclose : ∃ c, closes c = true) :
    SaysYes .eof (groupStep opens closes followed) 0 before x rest ↔
      GroupEnds (mixed opens closes) followed before x rest := by
  cases before with
  | nil =>
    obtain ⟨rfl, rfl⟩ := List.cons.inj hword
    constructor
    · rintro ⟨s, holds, hrun, hstep, -⟩
      simp [groupStep, ho] at hstep
    · rintro ⟨_, _, _, h, -⟩
      cases h
  | cons y inner =>
    obtain ⟨rfl, -⟩ := List.cons.inj hword
    have hinner : ∀ kind ∈ inner, kind ≠ .eof := fun k hk => hkinds k (by simp [hk])
    have hx : x ≠ .eof := hkinds x (by simp)
    have hreads : reads (groupStep opens closes followed) 0 (o :: inner) =
        (inner.foldlM (levelStep opens closes fun _ => True) 0).map (· + 1) := by
      rw [← reads_groupStep hinner, reads_cons, groupStep, if_pos ho]
      rfl
    have hlevel : inner.foldlM (levelStep opens closes fun _ => True) 0 = some 0 ↔
        Balanced (mixed opens closes) (fun _ => True) inner :=
      level_eq_zero_iff ⟨o, ho⟩ hclose disjoint
    constructor
    · rintro ⟨s, holds, hrun, hstep, hyes⟩
      rw [hreads] at hrun
      obtain ⟨d, hd, rfl⟩ := Option.map_eq_some_iff.mp hrun
      rw [groupStep] at hstep
      split_ifs at hstep with hxo hxc hzero
      obtain rfl : d = 0 := by omega
      cases hstep
      cases rest with
      | nil => simp [hfollowed.symm] at hyes
      | cons next rest =>
        obtain rfl : next = followed := by simpa using hyes
        exact groupEnds_cons.mpr ⟨⟨ho, hxc⟩, hlevel.mp hd⟩
    · rintro ⟨_, _, rest', hinner', rfl, ⟨-, hxc⟩, hnested⟩
      obtain ⟨-, rfl⟩ := List.cons.inj hinner'
      have hxo : ¬opens x = true := fun h => by simp [disjoint x h] at hxc
      refine ⟨1, (· == followed), ?_, ?_, by simp⟩
      · rw [hreads, hlevel.mpr hnested]
        rfl
      · simp [groupStep, hxo, hxc]

theorem ahead_eq_cons (ends : cursor.EndsWithEof) (h : cursor.peek.kind ≠ .eof) :
    ∃ tail, cursor.ahead = cursor.peek.kind :: tail := by
  have hpeek := Cursor.nth_kind ends (Nat.zero_le _)
  change cursor.peek.kind = cursor.ahead.headD .eof at hpeek
  cases hahead : cursor.ahead with
  | nil => simp [hahead, h] at hpeek
  | cons o tail =>
    rw [hahead] at hpeek
    exact ⟨tail, by rw [hpeek]; rfl⟩

variable (opens closes followed) in
theorem group_agrees_iff (pair : TokenKind → TokenKind → Prop) (ends : cursor.EndsWithEof)
    (hpeek : opens cursor.peek.kind = true)
    (disjoint : ∀ x, opens x = true → closes x = false) (hopens : opens .eof = false)
    (hcloses : closes .eof = false) (hfollowed : followed ≠ .eof)
    (hpair : ∀ o c, pair o c → mixed opens closes o c)
    (hopen : ∀ o, opens o = true → ∃ c, pair o c) (hclose : ∀ c, closes c = true → ∃ o, pair o c)
    (limit : ℕ) :
    (cursor.lookahead (groupStep opens closes followed) limit 0 0 = true ↔
        ∃ o inner c rest, cursor.ahead = o :: (inner ++ c :: followed :: rest) ∧ pair o c ∧
          Nested pair inner) ↔
      ∀ o inner c rest, cursor.ahead = o :: (inner ++ c :: followed :: rest) →
        mixed opens closes o c → Nested (mixed opens closes) inner →
          (inner.length + 1 < limit ↔ pair o c ∧ Nested pair inner) := by
  have stops (s : ℕ) : groupStep opens closes followed s .eof = .answer fun _ => false := by
    simp [groupStep, hopens, hcloses]
  have hne : cursor.peek.kind ≠ .eof := fun h => by simp [h, hopens] at hpeek
  obtain ⟨tail, htail⟩ := ahead_eq_cons ends hne
  obtain ⟨c, hc⟩ := hopen _ hpeek
  have yes (before : List TokenKind) (x : TokenKind) (rest : List TokenKind)
      (hword : cursor.ahead = before ++ x :: rest) :=
    (saysYes_groupStep disjoint hfollowed hpeek (htail.symm.trans hword)
      (fun kind hkind => Cursor.ne_eof_of_mem_ahead (hword ▸ hkind)) ⟨c, (hpair _ _ hc).2⟩).symm
  have good (before : List TokenKind) (x : TokenKind) (rest : List TokenKind)
      (_ : cursor.ahead = before ++ x :: rest) :
      GroupEnds pair followed before x rest →
        GroupEnds (mixed opens closes) followed before x rest := by
    rintro ⟨o, inner, rest', rfl, rfl, ho, hnested⟩
    refine groupEnds_cons.mpr ⟨hpair _ _ ho, ?_⟩
    exact hnested.mono hpair (fun o c h => hopen o h.1) (fun o c h => hclose c h.2)
  have h := lookahead_agrees_iff True stops yes good (n := limit)
  simp only [true_and] at h
  rw [Cursor.lookahead_eq stops ends (Nat.zero_le _), List.drop_zero, ← exists_groupEnds_iff, h]
  constructor
  · intro hlimit o inner c rest hahead ho hnested
    rw [← @groupEnds_cons followed pair o c inner rest]
    exact hlimit (o :: inner) c (followed :: rest) hahead (groupEnds_cons.mpr ⟨ho, hnested⟩)
  · rintro hlimit _ x _ hahead ⟨o, inner, rest, rfl, rfl, ho, hnested⟩
    rw [groupEnds_cons]
    exact hlimit o inner x rest hahead ho hnested

end Group

def opensDelimiter : TokenKind → Bool
  | .punct .lParen | .punct .lBracket | .punct .lBrace => true
  | _ => false

def closesDelimiter : TokenKind → Bool
  | .punct .rParen | .punct .rBracket | .punct .rBrace => true
  | _ => false

/-- Any delimiter that opens, with any that closes. -/
def anyDelimiters (o c : TokenKind) : Prop := mixed opensDelimiter closesDelimiter o c

variable {o c : TokenKind}

theorem delimiters_mixed (h : delimiters o c) : anyDelimiters o c := by
  obtain ⟨rfl, rfl⟩ | ⟨rfl, rfl⟩ | ⟨rfl, rfl⟩ := h <;> exact ⟨rfl, rfl⟩

theorem opensDelimiter_iff {o : TokenKind} : opensDelimiter o = true ↔ ∃ c, delimiters o c := by
  constructor
  · intro h
    unfold opensDelimiter at h
    split at h
    · exact ⟨_, .inl ⟨rfl, rfl⟩⟩
    · exact ⟨_, .inr (.inl ⟨rfl, rfl⟩)⟩
    · exact ⟨_, .inr (.inr ⟨rfl, rfl⟩)⟩
    · cases h
  · rintro ⟨c, h⟩
    exact (delimiters_mixed h).1

theorem closesDelimiter_iff {c : TokenKind} : closesDelimiter c = true ↔ ∃ o, delimiters o c := by
  constructor
  · intro h
    unfold closesDelimiter at h
    split at h
    · exact ⟨_, .inl ⟨rfl, rfl⟩⟩
    · exact ⟨_, .inr (.inl ⟨rfl, rfl⟩)⟩
    · exact ⟨_, .inr (.inr ⟨rfl, rfl⟩)⟩
    · cases h
  · rintro ⟨o, h⟩
    exact (delimiters_mixed h).2

/-- Neither the sign of an assignment nor the end of a statement. -/
def Operand (kind : TokenKind) : Prop := kind ≠ .punct .semi ∧ kind ≠ .punct .eq

instance : DecidablePred Operand := fun _ => inferInstanceAs (Decidable (_ ∧ _))

variable {kind : TokenKind}

theorem assignmentStep_state? (hkind : kind ≠ .eof) (d : ℕ) :
    (assignmentStep d kind).state? =
      levelStep opensDelimiter closesDelimiter Operand d kind := by
  cases kind with
  | punct punct =>
    cases punct <;> by_cases hd : d = 0 <;>
      simp [assignmentStep, levelStep, opensDelimiter, closesDelimiter, Operand, Reading.state?, hd]
  | eof => contradiction
  | _ => simp [assignmentStep, levelStep, opensDelimiter, closesDelimiter, Operand, Reading.state?]

theorem assignmentStep_yes {kind next : TokenKind} {d : ℕ} {holds : TokenKind → Bool}
    (h : assignmentStep d kind = .answer holds) (hyes : holds next = true) :
    d = 0 ∧ kind = .punct .eq := by
  unfold assignmentStep at h
  split at h
  case h_7 =>
    split_ifs at h with hd
    exact ⟨hd, rfl⟩
  all_goals (try split_ifs at h); cases h <;> simp at hyes

theorem saysYes_assignmentStep {before rest : List TokenKind} {x : TokenKind}
    (hkinds : ∀ kind ∈ before, kind ≠ .eof) :
    SaysYes .eof assignmentStep 0 before x rest ↔
      x = .punct .eq ∧ Balanced anyDelimiters Operand before := by
  have hreads (d : ℕ) : reads assignmentStep d before =
      before.foldlM (levelStep opensDelimiter closesDelimiter Operand) d := by
    induction before generalizing d with
    | nil => rfl
    | cons kind before ih =>
      rw [reads_cons, assignmentStep_state? (hkinds _ List.mem_cons_self), List.foldlM_cons]
      exact congrArg _ (funext fun d => ih (fun k hk => hkinds k (List.mem_cons_of_mem _ hk)) d)
  have hlevel : before.foldlM (levelStep opensDelimiter closesDelimiter Operand) 0 = some 0 ↔
      Balanced anyDelimiters Operand before :=
    level_eq_zero_iff ⟨.punct .lParen, rfl⟩ ⟨.punct .rParen, rfl⟩ fun x hx => by
      obtain ⟨c, ⟨rfl, -⟩ | ⟨rfl, -⟩ | ⟨rfl, -⟩⟩ := opensDelimiter_iff.mp hx <;> rfl
  rw [← hlevel, ← hreads]
  constructor
  · rintro ⟨d, holds, hrun, hstep, hyes⟩
    obtain ⟨rfl, rfl⟩ := assignmentStep_yes hstep hyes
    exact ⟨rfl, hrun⟩
  · rintro ⟨rfl, hrun⟩
    exact ⟨0, fun _ => true, hrun, rfl, rfl⟩

theorem assignmentFollows_iff {word : List TokenKind} :
    AssignmentFollows word ↔ ∃ before x rest, word = before ++ x :: rest ∧ x = .punct .eq ∧
      Balanced delimiters Operand before := by
  constructor
  · rintro ⟨target, rest, rfl, htarget⟩
    obtain h | ⟨before, x, after, rfl, rfl, h⟩ := htarget.first (· = .punct .eq)
    · exact ⟨target, _, rest, rfl, rfl, h⟩
    · exact ⟨before, _, after ++ .punct .eq :: rest, by simp, rfl, h⟩
  · rintro ⟨before, _, rest, rfl, rfl, h⟩
    exact ⟨before, rest, rfl, h.mono_top fun x hx => hx.1⟩

theorem startsAssignmentStmt_agrees_iff (ends : cursor.EndsWithEof) :
    (Parser.startsAssignmentStmt cursor = true ↔ AssignmentFollows cursor.ahead) ↔
      ∀ target rest, cursor.ahead = target ++ .punct .eq :: rest →
        Balanced anyDelimiters Operand target →
          (cursor.atIdentLike = true ∧ target.length < 64 ↔ Balanced delimiters Operand target) := by
  have stops (d : ℕ) : assignmentStep d .eof = .answer fun _ => false := rfl
  have yes (before : List TokenKind) (x : TokenKind) (rest : List TokenKind)
      (hword : cursor.ahead = before ++ x :: rest) :
      x = .punct .eq ∧ Balanced anyDelimiters Operand before ↔
        SaysYes .eof assignmentStep 0 before x rest :=
    (saysYes_assignmentStep fun kind hkind =>
      Cursor.ne_eof_of_mem_ahead (hword ▸ List.mem_append_left _ hkind)).symm
  have good (before : List TokenKind) (x : TokenKind) (rest : List TokenKind)
      (_ : cursor.ahead = before ++ x :: rest) :
      x = .punct .eq ∧ Balanced delimiters Operand before →
        x = .punct .eq ∧ Balanced anyDelimiters Operand before := by
    rintro ⟨rfl, h⟩
    exact ⟨rfl, h.mono (fun _ _ => delimiters_mixed) (fun o c h => opensDelimiter_iff.mp h.1)
      fun o c h => closesDelimiter_iff.mp h.2⟩
  have h := lookahead_agrees_iff (cursor.atIdentLike = true) stops yes good (n := 64)
  have hcode : Parser.startsAssignmentStmt cursor = true ↔ cursor.atIdentLike = true ∧
      lookahead .eof assignmentStep 64 0 cursor.ahead = true := by
    rw [Parser.startsAssignmentStmt, Cursor.lookahead_eq stops ends (Nat.zero_le _)]
    cases cursor.atIdentLike <;> simp
  rw [hcode, assignmentFollows_iff, h]
  constructor
  · intro hlimit target rest hahead htarget
    simpa using hlimit target _ rest hahead ⟨rfl, htarget⟩
  · rintro hlimit target _ rest hahead ⟨rfl, htarget⟩
    simpa using hlimit target rest hahead htarget

/-! Slices that are closed by a bracket. -/

/-- The depth of one kind of delimiters, counted by itself; what closes nothing is dropped. -/
def depthOf (o c : Punct) (kinds : List TokenKind) : ℕ :=
  kinds.foldl (fun depth kind =>
    if kind = .punct o then depth + 1 else if kind = .punct c then depth - 1 else depth) 0

/-- In one parenthesis, and in no other group. -/
def AtGroup (kinds : List TokenKind) : Prop :=
  depthOf .lParen .rParen kinds = 1 ∧ depthOf .lBracket .rBracket kinds = 0 ∧
    depthOf .lBrace .rBrace kinds = 0

/-- Some symbol satisfies `p` behind what stands before it. -/
def Passes (p : List TokenKind → TokenKind → Prop) (kinds : List TokenKind) : Prop :=
  ∃ left kind right, kinds = left ++ kind :: right ∧ p left kind

instance : DecidablePred AtGroup := fun _ => inferInstanceAs (Decidable (_ ∧ _))

def CommaAtGroup (left : List TokenKind) (kind : TokenKind) : Prop :=
  kind = .punct .comma ∧ AtGroup left

def CloseAtGroup (left : List TokenKind) (kind : TokenKind) : Prop :=
  (kind = .punct .rParen ∨ kind = .punct .rBracket) ∧ AtGroup left

instance (left : List TokenKind) : DecidablePred (CommaAtGroup left) :=
  fun _ => inferInstanceAs (Decidable (_ ∧ _))

instance (left : List TokenKind) : DecidablePred (CloseAtGroup left) :=
  fun _ => inferInstanceAs (Decidable (_ ∧ _))

/-- What stands before the bracket of an open slice, when each kind of delimiters is counted by
itself: the group has a comma and has not ended before. -/
def CountsAsSlice (kinds : List TokenKind) : Prop :=
  AtGroup kinds ∧ Passes CommaAtGroup kinds ∧ ¬Passes CloseAtGroup kinds

def countsOf (kinds : List TokenKind) (sawComma : Bool) : SliceDepths where
  paren := depthOf .lParen .rParen kinds
  bracket := depthOf .lBracket .rBracket kinds
  brace := depthOf .lBrace .rBrace kinds
  sawComma := sawComma

theorem atGroup_countsOf {sawComma : Bool} :
    (countsOf kinds sawComma).atGroup = true ↔ AtGroup kinds := by
  simp [SliceDepths.atGroup, countsOf, AtGroup, and_assoc]

theorem depthOf_snoc (o c : Punct) (kinds : List TokenKind) (kind : TokenKind) :
    depthOf o c (kinds ++ [kind]) =
      if kind = .punct o then depthOf o c kinds + 1
      else if kind = .punct c then depthOf o c kinds - 1 else depthOf o c kinds := by
  simp [depthOf]

theorem passes_snoc {p : List TokenKind → TokenKind → Prop} :
    Passes p (kinds ++ [kind]) ↔ Passes p kinds ∨ p kinds kind := by
  constructor
  · rintro ⟨left, x, right, hword, hp⟩
    obtain rfl | ⟨right, y, rfl⟩ := List.eq_nil_or_concat right
    · obtain ⟨rfl, hx⟩ := List.append_inj' hword rfl
      cases hx
      exact .inr hp
    · have hword : kinds ++ [kind] = (left ++ x :: right) ++ [y] := by simpa using hword
      obtain ⟨rfl, -⟩ := List.append_inj' hword rfl
      exact .inl ⟨left, x, right, rfl, hp⟩
  · rintro (⟨left, x, right, rfl, hp⟩ | hp)
    · exact ⟨left, x, right ++ [kind], by simp, hp⟩
    · exact ⟨kinds, kind, [], rfl, hp⟩

theorem sliceStep_state? (hkind : kind ≠ .eof) (saw : Bool) :
    (sliceStep (countsOf kinds saw) kind).state? =
      if CloseAtGroup kinds kind then none
      else some (countsOf (kinds ++ [kind]) (saw || decide (CommaAtGroup kinds kind))) := by
  have hat : (countsOf kinds saw).atGroup = decide (AtGroup kinds) :=
    Bool.eq_iff_iff.mpr (by simp [atGroup_countsOf])
  cases kind with
  | punct punct =>
    cases punct <;> by_cases h : AtGroup kinds <;>
      simp only [sliceStep, hat, h, decide_true, decide_false, Bool.false_eq_true, if_true, if_false] <;>
      simp [h, CloseAtGroup, CommaAtGroup, Reading.state?, countsOf, depthOf_snoc]
  | eof => contradiction
  | _ => simp [sliceStep, CloseAtGroup, CommaAtGroup, Reading.state?, countsOf, depthOf_snoc]

theorem reads_sliceStep (hkinds : ∀ kind ∈ kinds, kind ≠ .eof) {depths : SliceDepths} :
    reads sliceStep ⟨0, 0, 0, false⟩ kinds = some depths ↔
      ¬Passes CloseAtGroup kinds ∧
        ∃ saw, (saw = true ↔ Passes CommaAtGroup kinds) ∧ depths = countsOf kinds saw := by
  induction kinds using List.reverseRecOn generalizing depths with
  | nil =>
    have hnone (p : List TokenKind → TokenKind → Prop) : ¬Passes p [] := by
      rintro ⟨left, kind, right, h, -⟩
      simp at h
    constructor
    · intro h
      cases h
      exact ⟨hnone _, false, by simp [hnone], rfl⟩
    · rintro ⟨-, saw, hsaw, rfl⟩
      obtain rfl : saw = false := by simpa [hnone] using hsaw
      rfl
  | append_singleton kinds kind ih =>
    have hkind := hkinds kind (by simp)
    have ih (depths : SliceDepths) := @ih (fun k hk => hkinds k (by simp [hk])) depths
    rw [reads_append, Option.bind_eq_some_iff]
    constructor
    · rintro ⟨before, hbefore, hlast⟩
      obtain ⟨hclose, saw, hsaw, rfl⟩ := (ih before).mp hbefore
      rw [reads_cons, sliceStep_state? hkind] at hlast
      split_ifs at hlast with hc
      · cases hlast
      obtain rfl : countsOf (kinds ++ [kind]) _ = depths := Option.some.inj hlast
      refine ⟨by simp [passes_snoc, hclose, hc], _, ?_, rfl⟩
      simp [passes_snoc, hsaw]
    · rintro ⟨hclose, saw, hsaw, rfl⟩
      rw [passes_snoc, not_or] at hclose
      rw [passes_snoc] at hsaw
      classical
      obtain rfl : saw = (decide (Passes CommaAtGroup kinds) || decide (CommaAtGroup kinds kind)) :=
        Bool.eq_iff_iff.mpr (by simp [hsaw])
      refine ⟨_, (ih _).mpr ⟨hclose.1, decide (Passes CommaAtGroup kinds), by simp, rfl⟩, ?_⟩
      rw [reads_cons, sliceStep_state? hkind, if_neg hclose.2]
      rfl

theorem sliceStep_yes {depths : SliceDepths} {kind next : TokenKind} {holds : TokenKind → Bool}
    (h : sliceStep depths kind = .answer holds) (hyes : holds next = true) :
    kind = .punct .rBracket ∧ depths.atGroup = true ∧ depths.sawComma = true := by
  unfold sliceStep at h
  split at h
  case h_4 =>
    split_ifs at h with hat
    cases h
    exact ⟨rfl, hat, hyes⟩
  all_goals (try split_ifs at h) <;> cases h <;> simp at hyes

theorem saysYes_sliceStep {before rest : List TokenKind} {x : TokenKind}
    (hkinds : ∀ kind ∈ before, kind ≠ .eof) :
    SaysYes .eof sliceStep ⟨0, 0, 0, false⟩ before x rest ↔
      x = .punct .rBracket ∧ CountsAsSlice before := by
  constructor
  · rintro ⟨depths, holds, hrun, hstep, hyes⟩
    obtain ⟨rfl, hat, hsaw⟩ := sliceStep_yes hstep hyes
    obtain ⟨hclose, saw, hcomma, rfl⟩ := (reads_sliceStep hkinds).mp hrun
    exact ⟨rfl, atGroup_countsOf.mp hat, hcomma.mp hsaw, hclose⟩
  · rintro ⟨rfl, hat, hcomma, hclose⟩
    refine ⟨countsOf before true, fun _ => true, ?_, ?_, rfl⟩
    · exact (reads_sliceStep hkinds).mpr ⟨hclose, true, by simp [hcomma], rfl⟩
    · rw [sliceStep, if_pos (atGroup_countsOf.mpr hat)]
      rfl

theorem sliceStep_plain (hopen : ∀ c, ¬delimiters kind c)
    (hclose : ∀ o, ¬delimiters o kind) (hkind : kind ≠ .eof) (depths : SliceDepths) :
    ∃ saw, (depths.sawComma = true → saw = true) ∧
      sliceStep depths kind = .goOn { depths with sawComma := saw } := by
  have hopen' : ¬opensDelimiter kind = true := fun h => by
    obtain ⟨c, hc⟩ := opensDelimiter_iff.mp h
    exact hopen c hc
  have hclose' : ¬closesDelimiter kind = true := fun h => by
    obtain ⟨o, ho⟩ := closesDelimiter_iff.mp h
    exact hclose o ho
  cases kind with
  | punct punct =>
    cases punct
    case comma =>
      by_cases hat : depths.atGroup = true
      · exact ⟨true, fun _ => rfl, by simp [sliceStep, hat]⟩
      · exact ⟨depths.sawComma, id, by simp [sliceStep, hat]⟩
    case lParen | lBracket | lBrace => exact absurd rfl hopen'
    case rParen | rBracket | rBrace => exact absurd rfl hclose'
    all_goals exact ⟨depths.sawComma, id, rfl⟩
  | eof => contradiction
  | _ => exact ⟨depths.sawComma, id, rfl⟩

theorem sliceStep_group (hpair : delimiters o c) {depths : SliceDepths}
    (hparen : 1 ≤ depths.paren) :
    ∃ opened : SliceDepths, sliceStep depths o = .goOn opened ∧ 1 ≤ opened.paren ∧
      opened.sawComma = depths.sawComma ∧
      ∀ saw, sliceStep { opened with sawComma := saw } c = .goOn { depths with sawComma := saw } := by
  obtain ⟨rfl, rfl⟩ | ⟨rfl, rfl⟩ | ⟨rfl, rfl⟩ := hpair
  · refine ⟨_, rfl, Nat.le_add_left 1 _, rfl, fun saw => ?_⟩
    have hdeep : depths.paren ≠ 0 := by omega
    simp [sliceStep, SliceDepths.atGroup, hdeep]
  · refine ⟨_, rfl, hparen, rfl, fun saw => ?_⟩
    simp [sliceStep, SliceDepths.atGroup]
  · exact ⟨_, rfl, hparen, rfl, fun saw => rfl⟩

theorem reads_nested {top : TokenKind → Prop} (h : Balanced delimiters top kinds)
    (hkinds : ∀ kind ∈ kinds, kind ≠ .eof) (depths : SliceDepths) (hparen : 1 ≤ depths.paren) :
    ∃ saw, (depths.sawComma = true → saw = true) ∧
      reads sliceStep depths kinds = some { depths with sawComma := saw } := by
  induction h generalizing depths with
  | nil => exact ⟨depths.sawComma, id, rfl⟩
  | @plain top x rest hopen hclose htop _ ih =>
    obtain ⟨saw, hsaw, hstep⟩ := sliceStep_plain hopen hclose (hkinds x (by simp)) depths
    obtain ⟨saw', hsaw', hrest⟩ := ih (fun k hk => hkinds k (by simp [hk]))
      { depths with sawComma := saw } hparen
    refine ⟨saw', hsaw' ∘ hsaw, ?_⟩
    rw [reads_cons, hstep]
    exact hrest
  | @group top o c inner rest hpair _ _ ihinner ih =>
    have hinner : ∀ kind ∈ inner, kind ≠ .eof := fun k hk => hkinds k (by simp [hk])
    have hrest : ∀ kind ∈ rest, kind ≠ .eof := fun k hk => hkinds k (by simp [hk])
    obtain ⟨opened, hopen, hparen', hsaw, hclose⟩ := sliceStep_group hpair hparen
    obtain ⟨saw, hsaw', hin⟩ := ihinner hinner opened hparen'
    obtain ⟨saw', hsaw'', hout⟩ := ih hrest { depths with sawComma := saw } hparen
    refine ⟨saw', fun h => hsaw'' (hsaw' (hsaw ▸ h)), ?_⟩
    rw [reads_cons, hopen]
    change reads sliceStep opened (inner ++ c :: rest) = _
    rw [reads_append, hin, Option.bind_some, reads_cons, hclose]
    exact hout

theorem countsAsSlice_of_opensSlice (h : OpensSlice kinds) (hkinds : ∀ kind ∈ kinds, kind ≠ .eof) :
    CountsAsSlice kinds := by
  obtain ⟨left, right, rfl, hleft, hright⟩ := h
  have hl : ∀ kind ∈ left, kind ≠ .eof := fun k hk => hkinds k (by simp [hk])
  have hr : ∀ kind ∈ right, kind ≠ .eof := fun k hk => hkinds k (by simp [hk])
  obtain ⟨saw, -, hreadl⟩ := reads_nested hleft hl ⟨1, 0, 0, false⟩ le_rfl
  obtain ⟨saw', hsaw', hreadr⟩ := reads_nested hright hr ⟨1, 0, 0, true⟩ le_rfl
  obtain rfl : saw' = true := hsaw' rfl
  have hread : reads sliceStep ⟨0, 0, 0, false⟩
      (.punct .lParen :: (left ++ .punct .comma :: right)) = some ⟨1, 0, 0, true⟩ := by
    rw [reads_cons]
    change reads sliceStep ⟨1, 0, 0, false⟩ (left ++ .punct .comma :: right) = _
    rw [reads_append, hreadl, Option.bind_some, reads_cons]
    exact hreadr
  have hyes : SaysYes .eof sliceStep ⟨0, 0, 0, false⟩
      (.punct .lParen :: (left ++ .punct .comma :: right)) (.punct .rBracket) [] :=
    ⟨_, fun _ => true, hread, rfl, rfl⟩
  exact ((saysYes_sliceStep hkinds).mp hyes).2

theorem openClosedSliceFollows_agrees_iff (ends : cursor.EndsWithEof) :
    (Parser.openClosedSliceFollows cursor = true ↔ OpenSliceFollows cursor.ahead) ↔
      ∀ kinds rest, cursor.ahead = kinds ++ .punct .rBracket :: rest → CountsAsSlice kinds →
        (kinds.length < 96 ↔ OpensSlice kinds) := by
  have stops (depths : SliceDepths) : sliceStep depths .eof = .answer fun _ => false := rfl
  have hkinds {before : List TokenKind} {x : TokenKind} {rest : List TokenKind}
      (hword : cursor.ahead = before ++ x :: rest) : ∀ kind ∈ before, kind ≠ .eof :=
    fun kind hkind => Cursor.ne_eof_of_mem_ahead (hword ▸ List.mem_append_left _ hkind)
  have yes (before : List TokenKind) (x : TokenKind) (rest : List TokenKind)
      (hword : cursor.ahead = before ++ x :: rest) :
      x = .punct .rBracket ∧ CountsAsSlice before ↔
        SaysYes .eof sliceStep ⟨0, 0, 0, false⟩ before x rest :=
    (saysYes_sliceStep (hkinds hword)).symm
  have good (before : List TokenKind) (x : TokenKind) (rest : List TokenKind)
      (hword : cursor.ahead = before ++ x :: rest) :
      x = .punct .rBracket ∧ OpensSlice before → x = .punct .rBracket ∧ CountsAsSlice before :=
    fun ⟨hx, h⟩ => ⟨hx, countsAsSlice_of_opensSlice h (hkinds hword)⟩
  have h := lookahead_agrees_iff True stops yes good (n := 96)
  simp only [true_and] at h
  have hspec : OpenSliceFollows cursor.ahead ↔ ∃ before x rest,
      cursor.ahead = before ++ x :: rest ∧ x = .punct .rBracket ∧ OpensSlice before := by
    constructor
    · rintro ⟨kinds, rest, hword, hslice⟩
      exact ⟨kinds, _, rest, hword, rfl, hslice⟩
    · rintro ⟨kinds, _, rest, hword, rfl, hslice⟩
      exact ⟨kinds, rest, hword, hslice⟩
  rw [Parser.openClosedSliceFollows, Cursor.lookahead_eq stops ends (Nat.zero_le _),
    List.drop_zero, hspec, h]
  constructor
  · intro hlimit kinds rest hahead hcounts
    simpa using hlimit kinds _ rest hahead ⟨rfl, hcounts⟩
  · rintro hlimit kinds _ rest hahead ⟨rfl, hcounts⟩
    simpa using hlimit kinds rest hahead hcounts

/-! Groups that are closed by what the parser expects. -/

theorem mixed_parens : mixed (· == .punct .lParen) (· == .punct .rParen) = parens := by
  funext o c
  simp [mixed, parens]

theorem mixed_brackets :
    mixed (fun kind => kind == .punct .lBracket || kind == .punct .lt)
      (fun kind => kind == .punct .rBracket || kind == .punct .gt) = anyBrackets := by
  funext o c
  simp [mixed, anyBrackets]

theorem looksLikeLambdaParamList_agrees_iff (ends : cursor.EndsWithEof)
    (hpeek : cursor.atPunct .lParen = true) :
    (Parser.looksLikeLambdaParamList cursor = true ↔ LambdaParamListFollows cursor.ahead) ↔
      ∀ inner rest,
        cursor.ahead = .punct .lParen ::
          (inner ++ .punct .rParen :: .punct .fatArrow :: rest) →
        Nested parens inner → inner.length + 1 < 96 := by
  have h := group_agrees_iff (· == .punct .lParen) (· == .punct .rParen)
    (.punct .fatArrow) parens ends hpeek (by simp) rfl rfl nofun
    (fun o c h => mixed_parens ▸ h) (fun o h => ⟨_, by simpa using h, rfl⟩)
    (fun c h => ⟨_, rfl, by simpa using h⟩) 96
  rw [mixed_parens] at h
  have hspec : LambdaParamListFollows cursor.ahead ↔ ∃ o inner c rest,
      cursor.ahead = o :: (inner ++ c :: .punct .fatArrow :: rest) ∧ parens o c ∧
        Nested parens inner := by
    constructor
    · rintro ⟨inner, rest, hword, hinner⟩
      exact ⟨_, inner, _, rest, hword, ⟨rfl, rfl⟩, hinner⟩
    · rintro ⟨_, inner, _, rest, hword, ⟨rfl, rfl⟩, hinner⟩
      exact ⟨inner, rest, hword, hinner⟩
  rw [Parser.looksLikeLambdaParamList, hspec, h]
  constructor
  · intro hlimit inner rest hword hinner
    exact (hlimit _ inner _ rest hword ⟨rfl, rfl⟩ hinner).mpr ⟨⟨rfl, rfl⟩, hinner⟩
  · rintro hlimit _ inner _ rest hword ⟨rfl, rfl⟩ hinner
    exact ⟨fun _ => ⟨⟨rfl, rfl⟩, hinner⟩, fun _ => hlimit inner rest hword hinner⟩

theorem brackets_any (h : brackets o c) : anyBrackets o c := by
  obtain ⟨rfl, rfl⟩ | ⟨rfl, rfl⟩ := h
  · exact ⟨.inl rfl, .inl rfl⟩
  · exact ⟨.inr rfl, .inr rfl⟩

theorem bracketGroupFollowedBy_agrees_iff (ends : cursor.EndsWithEof)
    (hpeek : (cursor.atPunct .lBracket || cursor.atPunct .lt) = true) (punct : Punct) :
    (Parser.bracketGroupFollowedBy cursor punct = true ↔
        GroupFollowedBy punct cursor.ahead) ↔
      ∀ o inner c rest, cursor.ahead = o :: (inner ++ c :: .punct punct :: rest) →
        anyBrackets o c → Nested anyBrackets inner →
          (inner.length + 1 < 96 ↔ brackets o c ∧ Nested brackets inner) := by
  have disjoint (x : TokenKind) (hx : (x == .punct .lBracket || x == .punct .lt) = true) :
      (x == .punct .rBracket || x == .punct .gt) = false := by
    obtain rfl | rfl : x = .punct .lBracket ∨ x = .punct .lt := by simpa using hx
    · rfl
    · rfl
  have hopen (o : TokenKind) (ho : (o == .punct .lBracket || o == .punct .lt) = true) :
      ∃ c, brackets o c := by
    obtain rfl | rfl : o = .punct .lBracket ∨ o = .punct .lt := by simpa using ho
    · exact ⟨_, .inl ⟨rfl, rfl⟩⟩
    · exact ⟨_, .inr ⟨rfl, rfl⟩⟩
  have hclose (c : TokenKind) (hc : (c == .punct .rBracket || c == .punct .gt) = true) :
      ∃ o, brackets o c := by
    obtain rfl | rfl : c = .punct .rBracket ∨ c = .punct .gt := by simpa using hc
    · exact ⟨_, .inl ⟨rfl, rfl⟩⟩
    · exact ⟨_, .inr ⟨rfl, rfl⟩⟩
  have h := group_agrees_iff _ _ (.punct punct) _ ends hpeek disjoint rfl rfl nofun
    (fun o c h => mixed_brackets ▸ brackets_any h) hopen hclose 96
  rw [mixed_brackets] at h
  exact h

/-- When the answers are those of the predicates without a limit, for delimiters that each match
their own kind. -/
theorem lookahead_agrees (ends : cursor.EndsWithEof) (punct : Punct) :
    (cursor.atPunct .lParen = true →
      ((Parser.looksLikeLambdaParamList cursor = true ↔ LambdaParamListFollows cursor.ahead) ↔
        ∀ inner rest,
          cursor.ahead = .punct .lParen ::
            (inner ++ .punct .rParen :: .punct .fatArrow :: rest) →
          Nested parens inner → inner.length + 1 < 96)) ∧
    ((cursor.atPunct .lBracket || cursor.atPunct .lt) = true →
      ((Parser.bracketGroupFollowedBy cursor punct = true ↔ GroupFollowedBy punct cursor.ahead) ↔
        ∀ o inner c rest, cursor.ahead = o :: (inner ++ c :: .punct punct :: rest) →
          anyBrackets o c → Nested anyBrackets inner →
            (inner.length + 1 < 96 ↔ brackets o c ∧ Nested brackets inner))) ∧
    ((Parser.openClosedSliceFollows cursor = true ↔ OpenSliceFollows cursor.ahead) ↔
      ∀ kinds rest, cursor.ahead = kinds ++ .punct .rBracket :: rest → CountsAsSlice kinds →
        (kinds.length < 96 ↔ OpensSlice kinds)) ∧
    ((Parser.startsAssignmentStmt cursor = true ↔ AssignmentFollows cursor.ahead) ↔
      ∀ target rest, cursor.ahead = target ++ .punct .eq :: rest →
        Balanced anyDelimiters Operand target →
          (cursor.atIdentLike = true ∧ target.length < 64 ↔ Balanced delimiters Operand target)) :=
  ⟨looksLikeLambdaParamList_agrees_iff ends,
    fun hpeek => bracketGroupFollowedBy_agrees_iff ends hpeek punct,
    openClosedSliceFollows_agrees_iff ends, startsAssignmentStmt_agrees_iff ends⟩

/-- A file of these tokens, with nothing known about where they stand. -/
def fileOf (kinds : List TokenKind) : Cursor Unit where
  tokens := (kinds ++ [TokenKind.eof]).map (⟨·, ()⟩)
  position := 0
  nonempty := by simp

/-- A parenthesis around `n` names, as in `(a a a) => a`. -/
def paramList (n : ℕ) : List TokenKind :=
  .punct .lParen :: (List.replicate n .ident ++ [.punct .rParen, .punct .fatArrow, .ident])

theorem nested_names (pair : TokenKind → TokenKind → Prop) (hopen : ∀ c, ¬pair .ident c)
    (hclose : ∀ o, ¬pair o .ident) (n : ℕ) : Nested pair (List.replicate n .ident) := by
  induction n with
  | zero => exact .nil
  | succ n ih => exact .plain hopen hclose trivial ih

theorem lookahead_agrees_names :
    (Parser.looksLikeLambdaParamList (fileOf (paramList 2)) = true ↔
        LambdaParamListFollows (fileOf (paramList 2)).ahead) ↔
      ∀ inner rest,
        (fileOf (paramList 2)).ahead = .punct .lParen ::
          (inner ++ .punct .rParen :: .punct .fatArrow :: rest) →
        Nested parens inner → inner.length + 1 < 96 :=
  (@lookahead_agrees _ (fileOf (paramList 2)) rfl .lParen).1 rfl

/-- The cursor in `fs[a < b](x)`, at the comparison. -/
def comparison : List TokenKind :=
  [.punct .lt, .ident, .punct .rBracket, .punct .lParen, .ident, .punct .rParen]

/-- A parameter list of 95 tokens is not taken for one, and a comparison within an index is taken
for generic arguments. -/
theorem lookahead_disagrees :
    (Parser.looksLikeLambdaParamList (fileOf (paramList 95)) = false ∧
      LambdaParamListFollows (fileOf (paramList 95)).ahead) ∧
    (Parser.bracketGroupFollowedBy (fileOf comparison) .lParen = true ∧
      ¬GroupFollowedBy .lParen (fileOf comparison).ahead) := by
  refine ⟨⟨by decide +kernel, List.replicate 95 .ident, [.ident], by decide +kernel, ?_⟩,
    by decide, ?_⟩
  · exact nested_names parens nofun nofun 95
  · rintro ⟨o, inner, c, rest, hword, hpair, -⟩
    have hc : c ∈ comparison := by
      change c ∈ (fileOf comparison).ahead
      simp [hword]
    obtain rfl : o = .punct .lt := (List.cons.inj hword).1.symm
    obtain ⟨h, -⟩ | ⟨-, rfl⟩ := hpair
    · cases h
    · exact absurd hc (by decide)

end EtasFrontend.Syntax
