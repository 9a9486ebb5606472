import Mathlib.Data.Nat.Notation
import Mathlib.Tactic.ByContra
import Mathlib.Tactic.SplitIfs

/-! Words with nested delimiters, and scans that read a word up to an answer. -/
namespace EtasFrontend.Lib
variable {α σ : Type}

/-- Delimiters close in order; `top` holds of the other symbols that no group encloses. -/
inductive Balanced (pair : α → α → Prop) : (α → Prop) → List α → Prop
  | nil {top : α → Prop} : Balanced pair top []
  | plain {top : α → Prop} {x : α} {rest : List α} (hopen : ∀ y, ¬pair x y)
      (hclose : ∀ y, ¬pair y x) (htop : top x) (hrest : Balanced pair top rest) :
      Balanced pair top (x :: rest)
  | group {top : α → Prop} {o c : α} {inner rest : List α} (hpair : pair o c)
      (hinner : Balanced pair (fun _ => True) inner) (hrest : Balanced pair top rest) :
      Balanced pair top (o :: (inner ++ c :: rest))

namespace Balanced
variable {pair pair' : α → α → Prop} {top top' : α → Prop} {l m : List α}

theorem append (hl : Balanced pair top l) (hm : Balanced pair top m) :
    Balanced pair top (l ++ m) := by
  induction hl with
  | nil => exact hm
  | plain hopen hclose htop _ ih => exact .plain hopen hclose htop (ih hm)
  | group hpair hinner _ _ ih =>
    rw [List.cons_append, List.append_assoc, List.cons_append]
    exact .group hpair hinner (ih hm)

theorem mono (h : Balanced pair top l) (hpair : ∀ o c, pair o c → pair' o c)
    (hopen : ∀ o c, pair' o c → ∃ d, pair o d) (hclose : ∀ o c, pair' o c → ∃ d, pair d c) :
    Balanced pair' top l := by
  induction h with
  | nil => exact .nil
  | plain ho hc htop _ ih =>
    refine .plain (fun y hy => ?_) (fun y hy => ?_) htop ih
    · obtain ⟨d, hd⟩ := hopen _ _ hy
      exact ho d hd
    · obtain ⟨d, hd⟩ := hclose _ _ hy
      exact hc d hd
  | group hp _ _ ihinner ih => exact .group (hpair _ _ hp) ihinner ih

theorem mono_top (h : Balanced pair top l) (htop : ∀ x, top x → top' x) : Balanced pair top' l := by
  induction h with
  | nil => exact .nil
  | plain hopen hclose hx _ ih => exact .plain hopen hclose (htop _ hx) (ih htop)
  | group hpair hinner _ _ ih => exact .group hpair hinner (ih htop)

/-- The first symbol outside every group that satisfies `q`, if there is one. -/
theorem first (q : α → Prop) [DecidablePred q] (h : Balanced pair top l) :
    Balanced pair (fun x => top x ∧ ¬q x) l ∨
      ∃ before x after, l = before ++ x :: after ∧ q x ∧
        Balanced pair (fun x => top x ∧ ¬q x) before := by
  induction h with
  | nil => exact .inl .nil
  | @plain top x rest hopen hclose htop _ ih =>
    by_cases hx : q x
    · exact .inr ⟨[], x, rest, rfl, hx, .nil⟩
    · obtain hrest | ⟨before, y, after, rfl, hy, hbefore⟩ := ih
      · exact .inl (.plain hopen hclose ⟨htop, hx⟩ hrest)
      · exact .inr ⟨x :: before, y, after, rfl, hy, .plain hopen hclose ⟨htop, hx⟩ hbefore⟩
  | @group top o c inner rest hpair hinner _ _ ih =>
    obtain hrest | ⟨before, y, after, rfl, hy, hbefore⟩ := ih
    · exact .inl (.group hpair hinner hrest)
    · exact .inr ⟨o :: (inner ++ c :: before), y, after, by simp, hy, .group hpair hinner hbefore⟩

end Balanced

/-! Matching by a single depth: it cannot tell the kinds of delimiters apart. -/

section Level
variable (opens closes : α → Bool) (top : α → Prop) [DecidablePred top]

/-- The depth after one more symbol, unless it closes nothing or does not belong outside. -/
def levelStep (depth : ℕ) (x : α) : Option ℕ :=
  if opens x then some (depth + 1)
  else if closes x then if depth = 0 then none else some (depth - 1)
  else if depth = 0 ∧ ¬top x then none
  else some depth

def mixed (o c : α) : Prop := opens o = true ∧ closes c = true

/-- After `l` the depth is `d` groups back, where `l` closes them one after the other. -/
def Unwinds : ℕ → List α → Prop
  | 0, l => Balanced (mixed opens closes) top l
  | d + 1, l => ∃ inner c rest, l = inner ++ c :: rest ∧ closes c = true ∧
      Balanced (mixed opens closes) (fun _ => True) inner ∧ Unwinds d rest

variable {opens closes top}

omit [DecidablePred top] in
theorem Unwinds.append {g l : List α} (hg : Balanced (mixed opens closes) (fun _ => True) g) :
    ∀ {d : ℕ}, (d = 0 → Balanced (mixed opens closes) top g) → Unwinds opens closes top d l →
      Unwinds opens closes top d (g ++ l)
  | 0, htop, h => (htop rfl).append h
  | _ + 1, _, ⟨inner, c, rest, hl, hc, hinner, hrest⟩ =>
    ⟨g ++ inner, c, rest, by rw [hl, List.append_assoc], hc, hg.append hinner, hrest⟩

theorem unwinds_of_level {l : List α} {d : ℕ}
    (h : l.foldlM (levelStep opens closes top) d = some 0) : Unwinds opens closes top d l := by
  induction l generalizing d with
  | nil =>
    cases h
    exact Balanced.nil
  | cons x l ih =>
    rw [List.foldlM_cons, levelStep] at h
    split_ifs at h with hopen hclose hd htop
    · -- a group opens here: it is closed by the first one that is unwound
      obtain ⟨inner, c, rest, rfl, hc, hinner, hrest⟩ := ih h
      have hgroup {top : α → Prop} : Balanced (mixed opens closes) top (x :: (inner ++ [c])) :=
        .group ⟨hopen, hc⟩ hinner .nil
      have := Unwinds.append hgroup (fun _ => hgroup) hrest
      simpa using this
    · simp at h
    · obtain ⟨d, rfl⟩ := Nat.exists_eq_succ_of_ne_zero hd
      exact ⟨[], x, l, rfl, hclose, .nil, ih h⟩
    · simp at h
    · have hopen' : ∀ y, ¬mixed opens closes x y := fun y hy => hopen hy.1
      have hclose' : ∀ y, ¬mixed opens closes y x := fun y hy => hclose hy.2
      refine Unwinds.append (g := [x]) (.plain hopen' hclose' trivial .nil) (fun hd => ?_) (ih h)
      exact .plain hopen' hclose' (by_contra fun hx => htop ⟨hd, hx⟩) .nil

theorem Balanced.level (someOpen : ∃ o, opens o = true) (someClose : ∃ c, closes c = true)
    (disjoint : ∀ x, opens x = true → closes x = false) {top' : α → Prop} {l : List α}
    (h : Balanced (mixed opens closes) top' l) {d : ℕ} (hd : d = 0 → ∀ x, top' x → top x) :
    l.foldlM (levelStep opens closes top) d = some d := by
  induction h generalizing d with
  | nil => rfl
  | plain hopen hclose htop _ ih =>
    obtain ⟨o, ho⟩ := someOpen
    obtain ⟨c, hc⟩ := someClose
    have hx : ¬opens _ = true := fun h => hopen c ⟨h, hc⟩
    have hx' : ¬closes _ = true := fun h => hclose o ⟨ho, h⟩
    have hout := fun h : d = 0 ∧ ¬top _ => h.2 (hd h.1 _ htop)
    rw [List.foldlM_cons, levelStep, if_neg hx, if_neg hx', if_neg hout]
    exact ih hd
  | @group top' o c inner rest hpair _ _ ihinner ih =>
    have hc : ¬opens c = true := fun h => by simp [disjoint c h, mixed] at hpair
    have hinner := ihinner (d := d + 1) nofun
    have hback : levelStep opens closes top (d + 1) c = some d := by
      simp [levelStep, hc, hpair.2]
    rw [List.foldlM_cons, levelStep, if_pos hpair.1]
    simp only [Option.bind_eq_bind, Option.bind_some, List.foldlM_append, hinner, List.foldlM_cons,
      hback, ih hd]

/-- Returning to the depth of the start without answering is being balanced, kinds apart. -/
theorem level_eq_zero_iff (someOpen : ∃ o, opens o = true) (someClose : ∃ c, closes c = true)
    (disjoint : ∀ x, opens x = true → closes x = false) {l : List α} :
    l.foldlM (levelStep opens closes top) 0 = some 0 ↔ Balanced (mixed opens closes) top l :=
  ⟨unwinds_of_level, fun h => h.level someOpen someClose disjoint fun _ _ => id⟩

end Level

/-- What a scan does with one symbol: it goes on, or it answers by the symbol that follows. -/
inductive Reading (σ α : Type) where
  | goOn (state : σ)
  | answer (holds : α → Bool)

def Reading.state? : Reading σ α → Option σ
  | .goOn state => some state
  | .answer _ => none

variable (last : α) (step : σ → α → Reading σ α)

/-- At most `n` symbols are read; behind the word there is only `last`. -/
def lookahead : ℕ → σ → List α → Bool
  | 0, _, _ => false
  | n + 1, s, word =>
    match step s (word.headD last) with
    | .goOn s => lookahead n s word.tail
    | .answer holds => holds (word.tail.headD last)

/-- The word until the answer. -/
def reads (s : σ) (word : List α) : Option σ := word.foldlM (fun s x => (step s x).state?) s

/-- The scan says yes at `x`, with `rest` behind it. -/
def SaysYes (s : σ) (before : List α) (x : α) (rest : List α) : Prop :=
  ∃ s' holds, reads step s before = some s' ∧ step s' x = .answer holds ∧
    holds (rest.headD last) = true

variable {last step} {s : σ} {word : List α} {n : ℕ}

theorem lookahead_eq_true_iff (stops : ∀ s, step s last = .answer fun _ => false) :
    lookahead last step n s word = true ↔ ∃ before x rest, word = before ++ x :: rest ∧
      before.length < n ∧ SaysYes last step s before x rest := by
  induction n generalizing s word with
  | zero => simp [lookahead]
  | succ n ih =>
    cases word with
    | nil => simp [lookahead, stops]
    | cons y word =>
      rw [lookahead]
      cases hy : step s y with
      | goOn s' =>
        simp only [List.headD_cons, hy, List.tail_cons, ih]
        constructor
        · rintro ⟨before, x, rest, rfl, hlen, s'', holds, hrun, hx⟩
          refine ⟨y :: before, x, rest, rfl, by simpa using hlen, s'', holds, ?_, hx⟩
          simpa [reads, hy, Reading.state?] using hrun
        · rintro ⟨before, x, rest, hword, hlen, s'', holds, hrun, hx⟩
          cases before with
          | nil =>
            cases hrun
            obtain ⟨rfl, rfl⟩ := List.cons.inj hword
            simp [hy] at hx
          | cons z before =>
            obtain ⟨rfl, rfl⟩ := List.cons.inj hword
            refine ⟨before, x, rest, rfl, by simpa using hlen, s'', holds, ?_, hx⟩
            simpa [reads, hy, Reading.state?] using hrun
      | answer holds =>
        simp only [List.headD_cons, hy, List.tail_cons]
        constructor
        · intro h
          exact ⟨[], y, word, rfl, by simp, s, holds, rfl, hy, h⟩
        · rintro ⟨before, x, rest, hword, hlen, s'', holds', hrun, hx, hyes⟩
          cases before with
          | nil =>
            cases hrun
            obtain ⟨rfl, rfl⟩ := List.cons.inj hword
            cases hy.symm.trans hx
            exact hyes
          | cons z before =>
            obtain ⟨rfl, rfl⟩ := List.cons.inj hword
            simp [reads, hy, Reading.state?] at hrun

theorem reads_cons (x : α) (word : List α) :
    reads step s (x :: word) = ((step s x).state?).bind (reads step · word) := by
  simp [reads]

theorem reads_append (before after : List α) :
    reads step s (before ++ after) = (reads step s before).bind (reads step · after) := by
  simp [reads, List.foldlM_append]

/-- There is at most one answer. -/
theorem SaysYes.unique {before before' rest rest' : List α} {x x' : α}
    (h : SaysYes last step s before x rest) (h' : SaysYes last step s before' x' rest')
    (hword : before ++ x :: rest = before' ++ x' :: rest') :
    before = before' ∧ x = x' ∧ rest = rest' := by
  induction before generalizing s before' with
  | nil =>
    cases before' with
    | nil => simpa using hword
    | cons y before' =>
      obtain ⟨rfl, -⟩ := List.cons.inj hword
      obtain ⟨_, holds, hrun, hx, -⟩ := h
      obtain ⟨_, _, hrun', -⟩ := h'
      cases hrun
      simp [reads, hx, Reading.state?] at hrun'
  | cons y before ih =>
    obtain ⟨t, holds, hrun, hx⟩ := h
    obtain ⟨t', holds', hrun', hx'⟩ := h'
    cases before' with
    | nil =>
      obtain ⟨rfl, -⟩ := List.cons.inj hword
      cases hrun'
      simp [reads, hx'.1, Reading.state?] at hrun
    | cons y' before' =>
      obtain ⟨rfl, htail⟩ := List.cons.inj hword
      cases hy : step s y with
      | answer => simp [reads, hy, Reading.state?] at hrun
      | goOn s' =>
        have hb : reads step s' before = some t := by simpa [reads, hy, Reading.state?] using hrun
        have hb' : reads step s' before' = some t' := by
          simpa [reads, hy, Reading.state?] using hrun'
        obtain ⟨rfl, rfl, rfl⟩ := ih ⟨t, holds, hb, hx⟩ ⟨t', holds', hb', hx'⟩ htail
        exact ⟨rfl, rfl, rfl⟩

/-- A scan behind a guard against what it looks for: the two agree exactly when it looks for the
place where it says yes if that place is within the limit. -/
theorem lookahead_agrees_iff (guard : Prop)
    (stops : ∀ s, step s last = .answer fun _ => false)
    {Yes Good : List α → α → List α → Prop}
    (yes : ∀ before x rest, word = before ++ x :: rest →
      (Yes before x rest ↔ SaysYes last step s before x rest))
    (good : ∀ before x rest, word = before ++ x :: rest → Good before x rest → Yes before x rest) :
    (guard ∧ lookahead last step n s word = true ↔
        ∃ before x rest, word = before ++ x :: rest ∧ Good before x rest) ↔
      ∀ before x rest, word = before ++ x :: rest → Yes before x rest →
        (guard ∧ before.length < n ↔ Good before x rest) := by
  rw [lookahead_eq_true_iff stops]
  constructor
  · intro h before x rest hword hyes
    have hsays := (yes _ _ _ hword).mp hyes
    constructor
    · rintro ⟨hguard, hlen⟩
      obtain ⟨b, y, r, hword', hgood⟩ := h.mp ⟨hguard, before, x, rest, hword, hlen, hsays⟩
      have hsays' := (yes _ _ _ hword').mp (good _ _ _ hword' hgood)
      obtain ⟨rfl, rfl, rfl⟩ := hsays.unique hsays' (hword.symm.trans hword')
      exact hgood
    · intro hgood
      obtain ⟨hguard, b, y, r, hword', hlen, hsays'⟩ := h.mpr ⟨before, x, rest, hword, hgood⟩
      obtain ⟨rfl, rfl, rfl⟩ := hsays.unique hsays' (hword.symm.trans hword')
      exact ⟨hguard, hlen⟩
  · intro h
    constructor
    · rintro ⟨hguard, before, x, rest, hword, hlen, hsays⟩
      exact ⟨before, x, rest, hword,
        (h _ _ _ hword ((yes _ _ _ hword).mpr hsays)).mp ⟨hguard, hlen⟩⟩
    · rintro ⟨before, x, rest, hword, hgood⟩
      have hyes := good _ _ _ hword hgood
      obtain ⟨hguard, hlen⟩ := (h _ _ _ hword hyes).mpr hgood
      exact ⟨hguard, before, x, rest, hword, hlen, (yes _ _ _ hword).mp hyes⟩

end EtasFrontend.Lib
