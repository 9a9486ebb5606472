import EtasFrontend.Residual.Materialize

/-! Materialization yields the disjunctive normal form of an expression, or reports that it is too
large. -/
namespace EtasFrontend.Residual
open Lib Effects

/-! Sizes. -/

section
variable {α : Type}

theorem checkedAdd_eq_some {a b c : ℕ} : checkedAdd a b = some c ↔ a + b = c ∧ c < 2 ^ 64 := by
  unfold checkedAdd
  split_ifs with h
  · constructor
    · intro hc
      cases hc
      exact ⟨rfl, h⟩
    · rintro ⟨rfl, -⟩
      rfl
  · constructor
    · intro hc
      cases hc
    · rintro ⟨rfl, hlt⟩
      exact absurd hlt h

theorem checkedMul_eq_some {a b c : ℕ} : checkedMul a b = some c ↔ a * b = c ∧ c < 2 ^ 64 := by
  unfold checkedMul
  split_ifs with h
  · constructor
    · intro hc
      cases hc
      exact ⟨rfl, h⟩
    · rintro ⟨rfl, -⟩
      rfl
  · constructor
    · intro hc
      cases hc
    · rintro ⟨rfl, hlt⟩
      exact absurd hlt h

variable {alternatives : List (List α)}

theorem foldlM_checkedAdd_eq_some {start total : ℕ} (hne : alternatives ≠ []) :
    alternatives.foldlM (fun size clauses => checkedAdd size clauses.length) start = some total ↔
      start + Formula.clauseCount alternatives = total ∧ total < 2 ^ 64 := by
  induction alternatives generalizing start with
  | nil => exact absurd rfl hne
  | cons clauses rest ih =>
    rw [List.foldlM_cons, Formula.clauseCount_cons]
    constructor
    · intro h
      obtain ⟨next, hnext, h⟩ := Option.bind_eq_some_iff.mp h
      obtain ⟨hsum, hlt⟩ := checkedAdd_eq_some.mp hnext
      by_cases hrest : rest = []
      · subst hrest
        cases h
        exact ⟨by simpa using hsum, hlt⟩
      · obtain ⟨htotal, hlt⟩ := (ih hrest).mp h
        exact ⟨by omega, hlt⟩
    · rintro ⟨htotal, hlt⟩
      apply Option.bind_eq_some_iff.mpr
      have hnext : checkedAdd start clauses.length = some (start + clauses.length) :=
        checkedAdd_eq_some.mpr ⟨rfl, by omega⟩
      refine ⟨_, hnext, ?_⟩
      by_cases hrest : rest = []
      · subst hrest
        have hend : start + clauses.length = total := by simpa using htotal
        rw [hend]
        rfl
      · exact (ih hrest).mpr ⟨by omega, hlt⟩

theorem alternativesSize_eq_some {size : ℕ} (hne : alternatives ≠ []) :
    alternativesSize alternatives = some size ↔
      Formula.size alternatives = size ∧ size < 2 ^ 64 :=
  foldlM_checkedAdd_eq_some hne

theorem clauses_of_size {clauses : ℕ} :
    checkedSub (Formula.size alternatives) alternatives.length = some clauses ↔
      Formula.clauseCount alternatives = clauses := by
  have hle : alternatives.length ≤ Formula.size alternatives := Nat.le_add_right _ _
  have hsub : Formula.size alternatives - alternatives.length =
      Formula.clauseCount alternatives := Nat.add_sub_cancel_left ..
  rw [checkedSub, if_pos hle, hsub, Option.some_inj]

variable {left right : List (List α)}

theorem conjunctionSize_eq_some {count size : ℕ} (hl : left ≠ []) (hr : right ≠ []) :
    conjunctionSize left right = some (count, size) ↔
      left.length * right.length = count ∧ Formula.size (Formula.conjoin left right) = size ∧
        size < 2 ^ 64 := by
  have hsize := Formula.size_conjoin left right
  have hleft := Formula.size_le_conjoin_left left (List.length_pos_iff.mpr hr)
  have hright := Formula.size_le_conjoin_right right (List.length_pos_iff.mpr hl)
  unfold conjunctionSize
  simp only [Option.bind_eq_bind, Option.bind_eq_some_iff]
  constructor
  · rintro ⟨count', hcount, leftSize, hleftSize, leftClauses, hleftClauses, rightSize, hrightSize,
      rightClauses, hrightClauses, copiedLeft, hcopiedLeft, size', hsize', copiedRight,
      hcopiedRight, total, htotal, hresult⟩
    obtain ⟨hcount, -⟩ := checkedMul_eq_some.mp hcount
    obtain ⟨rfl, -⟩ := (alternativesSize_eq_some hl).mp hleftSize
    obtain ⟨rfl, -⟩ := (alternativesSize_eq_some hr).mp hrightSize
    have hleftClauses := clauses_of_size.mp hleftClauses
    have hrightClauses := clauses_of_size.mp hrightClauses
    obtain ⟨hcopiedLeft, -⟩ := checkedMul_eq_some.mp hcopiedLeft
    obtain ⟨hcopiedRight, -⟩ := checkedMul_eq_some.mp hcopiedRight
    obtain ⟨hsize', -⟩ := checkedAdd_eq_some.mp hsize'
    obtain ⟨htotal, hlt⟩ := checkedAdd_eq_some.mp htotal
    cases hresult
    rw [hleftClauses, hrightClauses] at hsize
    exact ⟨hcount, by omega, hlt⟩
  · rintro ⟨hcount, rfl, hlt⟩
    refine ⟨count, checkedMul_eq_some.mpr ⟨hcount, by omega⟩,
      Formula.size left, (alternativesSize_eq_some hl).mpr ⟨rfl, by omega⟩,
      Formula.clauseCount left, clauses_of_size.mpr rfl,
      Formula.size right, (alternativesSize_eq_some hr).mpr ⟨rfl, by omega⟩,
      Formula.clauseCount right, clauses_of_size.mpr rfl,
      Formula.clauseCount left * right.length, checkedMul_eq_some.mpr ⟨rfl, by omega⟩,
      count + Formula.clauseCount left * right.length, checkedAdd_eq_some.mpr ⟨rfl, by omega⟩,
      Formula.clauseCount right * left.length, checkedMul_eq_some.mpr ⟨rfl, by omega⟩,
      Formula.size (Formula.conjoin left right), checkedAdd_eq_some.mpr ⟨by omega, hlt⟩, ?_⟩
    rfl

theorem mapM_eq_some_map {β γ : Type} {f : β → Option γ} {g : β → γ} {l : List β}
    (h : ∀ x ∈ l, f x = some (g x)) : l.mapM f = some (l.map g) := by
  induction l with
  | nil => rfl
  | cons x l ih =>
    rw [List.mapM_cons, h x List.mem_cons_self, ih fun y hy => h y (List.mem_cons_of_mem _ hy)]
    rfl

theorem conjoinAlternatives_eq (limits : MetadataLimits) (hl : left ≠ []) (hr : right ≠ []) :
    conjoinAlternatives limits left right =
      if Formula.size (Formula.conjoin left right) ≤ limits.nodes then
        some (Formula.conjoin left right)
      else none := by
  have hnodes := limits.nodes_lt
  unfold conjoinAlternatives
  by_cases hlt : Formula.size (Formula.conjoin left right) < 2 ^ 64
  · have hsize : conjunctionSize left right =
        some (left.length * right.length, Formula.size (Formula.conjoin left right)) :=
      (conjunctionSize_eq_some hl hr).mpr ⟨rfl, rfl, hlt⟩
    have hinner : ∀ a ∈ left, (right.mapM fun b => do
        let _ ← checkedAdd a.length b.length
        return a ++ b) = some (right.map fun b => a ++ b) := by
      intro a ha
      apply mapM_eq_some_map
      intro b hb
      have hmem : a ++ b ∈ Formula.conjoin left right :=
        List.mem_flatMap.mpr ⟨a, ha, List.mem_map_of_mem hb⟩
      have hlength := Formula.length_le_clauseCount hmem
      have hle : Formula.clauseCount (Formula.conjoin left right) ≤
        Formula.size (Formula.conjoin left right) := Nat.le_add_left _ _
      rw [List.length_append] at hlength
      have hadd : checkedAdd a.length b.length = some (a.length + b.length) :=
        checkedAdd_eq_some.mpr ⟨rfl, by omega⟩
      rw [hadd]
      rfl
    have hproducts := mapM_eq_some_map hinner
    rw [hsize]
    by_cases hfits : Formula.size (Formula.conjoin left right) ≤ limits.nodes
    · rw [if_pos hfits]
      simp only [Option.bind_eq_bind, Option.bind_some] at hproducts ⊢
      rw [if_neg (Nat.not_lt.mpr hfits), hproducts]
      rfl
    · rw [if_neg hfits]
      simp only [Option.bind_eq_bind, Option.bind_some]
      rw [if_pos (Nat.lt_of_not_le hfits)]
  · have hnone : conjunctionSize left right = none := by
      cases h : conjunctionSize left right with
      | none => rfl
      | some result =>
        obtain ⟨-, heq, hresult⟩ := (conjunctionSize_eq_some hl hr).mp h
        exact absurd (heq ▸ hresult) hlt
    rw [hnone, if_neg (by omega)]
    rfl

theorem disjunctionFits_iff (limits : MetadataLimits) (hl : left ≠ []) (hr : right ≠ []) :
    disjunctionFits limits left right = true ↔
      Formula.size (left ++ right) ≤ limits.nodes := by
  have hnodes := limits.nodes_lt
  have hsize := Formula.size_append left right
  have hsum : ∀ size, (do
      let leftSize ← alternativesSize left
      let rightSize ← alternativesSize right
      checkedAdd leftSize rightSize) = some size ↔
        Formula.size (left ++ right) = size ∧ size < 2 ^ 64 := by
    intro size
    simp only [Option.bind_eq_bind, Option.bind_eq_some_iff]
    constructor
    · rintro ⟨leftSize, hleft, rightSize, hright, htotal⟩
      obtain ⟨rfl, -⟩ := (alternativesSize_eq_some hl).mp hleft
      obtain ⟨rfl, -⟩ := (alternativesSize_eq_some hr).mp hright
      obtain ⟨rfl, hlt⟩ := checkedAdd_eq_some.mp htotal
      exact ⟨hsize, hlt⟩
    · rintro ⟨rfl, hlt⟩
      exact ⟨_, (alternativesSize_eq_some hl).mpr ⟨rfl, by omega⟩,
        _, (alternativesSize_eq_some hr).mpr ⟨rfl, by omega⟩,
        checkedAdd_eq_some.mpr ⟨hsize.symm, hlt⟩⟩
  unfold disjunctionFits
  split
  · rename_i hnone
    constructor
    · intro h
      cases h
    · intro h
      have hsome := (hsum _).mpr ⟨rfl, by omega⟩
      rw [hnone] at hsome
      cases hsome
  · rename_i size hsome
    obtain ⟨rfl, -⟩ := (hsum size).mp hsome
    simp

end

/-! Runs of the materializer. -/

theorem dnf_map_ne_nil {α β : Type} (f : α → β) (φ : Formula α) : φ.dnf.map (List.map f) ≠ [] := by
  have hpos := φ.length_dnf_pos
  intro h
  rw [List.map_eq_nil_iff.mp h] at hpos
  exact absurd hpos (Nat.lt_irrefl 0)

variable {leaf : HirSpecExpr × List ℕ} {path : List ℕ} {expr : HirSpecExpr}

theorem HirSpecExpr.length_le_of_mem_leaves (h : leaf ∈ (expr.formula path).leaves) :
    path.length ≤ leaf.2.length := by
  induction expr generalizing path with
  | and lhs rhs span hl hr | or lhs rhs span hl hr =>
    rcases List.mem_append.mp h with h | h
    · have hle := hl h
      rw [List.length_append] at hle
      omega
    · have hle := hr h
      rw [List.length_append] at hle
      omega
  | _ =>
    have hleaf := List.mem_singleton.mp h
    rw [hleaf]

theorem HirSpecExpr.exists_mem_leaves (expr : HirSpecExpr) (path : List ℕ) :
    ∃ leaf, leaf ∈ (expr.formula path).leaves := by
  induction expr generalizing path with
  | and lhs rhs span hl hr | or lhs rhs span hl hr =>
    obtain ⟨leaf, hleaf⟩ := hl (path ++ [0])
    exact ⟨leaf, List.mem_append_left _ hleaf⟩
  | _ => exact ⟨_, List.mem_singleton_self _⟩

namespace TraceSpecMaterializer
variable {Site : Type} {m : TraceSpecMaterializer Site} {sites : Set Site}

variable {state state' : MaterializerState Site}

theorem run_bind {α β : Type} {x : MaterializerM Site α} {f : α → MaterializerM Site β} {a : α}
    (h : x state = .ok (a, state')) :
    (x >>= f) state = f a state' := by
  change (x state >>= fun p => f p.1 p.2) = _
  rw [h]
  rfl

theorem run_diagnostic (span : Hir.Span) (message : String) (state : MaterializerState Site) :
    diagnostic span message state =
      .ok ((), { state with diagnostics := state.diagnostics ++ [⟨span, message⟩] }) := rfl

theorem pattern_of_resolved {effectRef : Hir.HirEffectRef} {row : TraceSpecPattern}
    (h : m.resolved effectRef = some row) (state : MaterializerState Site) :
    m.pattern effectRef state = .ok (some row, state) := by
  unfold resolved at h
  split at h
  · rename_i hpattern
    cases h
    simp [pattern, hpattern]
  · cases h

theorem patternOperand_of_resolved {row : TraceSpecPattern} (h : m.resolvedOperand expr = some row)
    (state : MaterializerState Site) :
    m.patternOperand expr state = .ok (some row, state) := by
  cases expr with
  | atom pattern | allow pattern span | deny pattern span => exact pattern_of_resolved h state
  | and lhs rhs span | or lhs rhs span | before before after span | after after before span =>
    cases h

/-- What a run makes of the alternatives of an expression. -/
def Yields (m : TraceSpecMaterializer Site) (alternatives : TraceSpecClauseAlternatives)
    (state : MaterializerState Site)
    (result : Option TraceSpecClauseAlternatives × MaterializerState Site) : Prop :=
  (Formula.size alternatives ≤ m.limits.nodes ∧ result.1 = some alternatives ∧
      result.2.diagnostics = state.diagnostics) ∨
    (m.limits.nodes < Formula.size alternatives ∧ result.1 = none ∧
      ∃ span, result.2.diagnostics = state.diagnostics ++ [⟨span, alternativeLimitMessage⟩])

theorem yields_clause {clause : TraceSpecClause} (h : state'.diagnostics = state.diagnostics) :
    m.Yields [[clause]] state (some [[clause]], state') := by
  left
  exact ⟨m.limits.two_le_nodes, rfl, h⟩

variable {state : MaterializerState Site}

/-- The operands one after the other, and what is made of both. -/
theorem yields_operands {x y : MaterializerM Site (Option TraceSpecClauseAlternatives)}
    {last : TraceSpecClauseAlternatives → TraceSpecClauseAlternatives →
      MaterializerM Site (Option TraceSpecClauseAlternatives)}
    {left right whole : TraceSpecClauseAlternatives} {span : Hir.Span}
    (hx : ∀ state, m.Recorded sites state →
      ∃ result, x state = .ok result ∧ m.Recorded sites result.2 ∧ m.Yields left state result)
    (hy : ∀ state, m.Recorded sites state →
      ∃ result, y state = .ok result ∧ m.Recorded sites result.2 ∧ m.Yields right state result)
    (hleft : Formula.size left ≤ Formula.size whole)
    (hright : Formula.size right ≤ Formula.size whole)
    (hlast : last left right =
      if Formula.size whole ≤ m.limits.nodes then return some whole
      else do
        diagnostic span alternativeLimitMessage
        return none) (hrec : m.Recorded sites state) :
    ∃ result, (do
        match ← x with
        | none => return none
        | some left =>
          match ← y with
          | none => return none
          | some right => last left right : MaterializerM Site _) state = .ok result ∧
      m.Recorded sites result.2 ∧ m.Yields whole state result := by
  obtain ⟨⟨found, stateLeft⟩, hrun, hrecLeft, hyields⟩ := hx state hrec
  rcases hyields with ⟨-, hsome, hdiagnostics⟩ | ⟨hlarge, hnone, at', hdiagnostics⟩
  · cases hsome
    obtain ⟨⟨found, stateRight⟩, hrunRight, hrecRight, hyields⟩ := hy stateLeft hrecLeft
    rcases hyields with ⟨-, hsome, hdiagnostics'⟩ | ⟨hlarge, hnone, at', hdiagnostics'⟩
    · cases hsome
      have hsame := hdiagnostics'.trans hdiagnostics
      rw [run_bind hrun]
      dsimp only
      rw [run_bind hrunRight]
      dsimp only
      rw [hlast]
      by_cases hfits : Formula.size whole ≤ m.limits.nodes
      · rw [if_pos hfits]
        exact ⟨_, rfl, hrecRight, .inl ⟨hfits, rfl, hsame⟩⟩
      · rw [if_neg hfits]
        refine ⟨_, rfl, hrecRight, .inr ⟨Nat.lt_of_not_le hfits, rfl, span, ?_⟩⟩
        exact congrArg (fun list => list ++ _) hsame
    · cases hnone
      refine ⟨_, ?_, hrecRight, .inr ⟨by omega, rfl, at', ?_⟩⟩
      · rw [run_bind hrun]
        dsimp only
        rw [run_bind hrunRight]
        rfl
      · rw [hdiagnostics', hdiagnostics]
  · cases hnone
    refine ⟨_, ?_, hrecLeft, .inr ⟨by omega, rfl, at', hdiagnostics⟩⟩
    rw [run_bind hrun]
    rfl

theorem within_depth (hplaced : ∀ leaf ∈ (expr.formula path).leaves, m.Placed sites leaf) :
    ¬m.limits.depth < path.length := by
  obtain ⟨leaf, hleaf⟩ := expr.exists_mem_leaves path
  have hle := HirSpecExpr.length_le_of_mem_leaves hleaf
  have hlimit := (hplaced leaf hleaf).depth
  omega

variable [DecidableEq Site]

section
variable (hsites : sites.InjOn m.siteId)
include hsites

theorem sourceClause_of_placed (hplaced : m.Placed sites leaf)
    (hrec : m.Recorded sites state) :
    ∃ state', m.sourceClause leaf.1.span leaf.2 state =
        .ok (m.clauseId leaf.1.span leaf.2, state') ∧
      m.Recorded sites state' ∧ state'.diagnostics = state.diagnostics := by
  obtain ⟨site, hsite, hmem⟩ := hplaced.site
  cases site with
  | none => exact ⟨state, by simp [sourceClause, clauseId, hsite], hrec, rfl⟩
  | some site =>
    have hmem : site ∈ sites := hmem site rfl
    have hagree : (state.sourceClauseSites.get (m.siteId site)).any
        (fun previous => previous != site) = false := by
      cases hget : state.sourceClauseSites.get (m.siteId site) with
      | none => rfl
      | some previous =>
        obtain ⟨hprevious, hid⟩ := hrec _ _ hget
        have heq : previous = site := hsites hprevious hmem hid
        simp [heq]
    have hrun : m.sourceClause leaf.1.span leaf.2 state =
        .ok (m.clauseId leaf.1.span leaf.2, { state with
          sourceClauseSites := state.sourceClauseSites.insert (m.siteId site) site }) := by
      simp [sourceClause, clauseId, hsite, hagree]
    refine ⟨_, hrun, ?_, rfl⟩
    intro id other hget
    rw [Map.get_insert] at hget
    split_ifs at hget with heq
    · cases hget
      exact ⟨hmem, heq.symm⟩
    · exact hrec id other hget

theorem patternClause_of_resolved {effectRef : Hir.HirEffectRef}
    (hplaced : m.Placed sites leaf) {make : TraceSpecPattern → Option ClauseId → TraceSpecClause}
    {clause : TraceSpecClause}
    (h : (m.resolved effectRef).map (fun row => make row (m.clauseId leaf.1.span leaf.2)) =
      some clause) (hrec : m.Recorded sites state) :
    ∃ result, m.patternClause effectRef leaf.1.span leaf.2 make state = .ok result ∧
      m.Recorded sites result.2 ∧ m.Yields [[clause]] state result := by
  obtain ⟨row, hrow, rfl⟩ := Option.map_eq_some_iff.mp h
  obtain ⟨state', hclause, hrec', hdiagnostics⟩ := sourceClause_of_placed hsites hplaced hrec
  refine ⟨(_, state'), ?_, hrec', yields_clause hdiagnostics⟩
  unfold patternClause
  rw [run_bind (pattern_of_resolved hrow state)]
  dsimp only
  rw [run_bind hclause]
  rfl

theorem temporalClause_of_resolved {first second : HirSpecExpr}
    (hplaced : m.Placed sites leaf)
    {make : TraceSpecPattern → TraceSpecPattern → Option ClauseId → TraceSpecClause}
    {firstRow secondRow : TraceSpecPattern} (hfirst : m.resolvedOperand first = some firstRow)
    (hsecond : m.resolvedOperand second = some secondRow) (hrec : m.Recorded sites state) :
    ∃ result, m.temporalClause first second leaf.1.span leaf.2 make state = .ok result ∧
      m.Recorded sites result.2 ∧
      m.Yields [[make firstRow secondRow (m.clauseId leaf.1.span leaf.2)]] state result := by
  obtain ⟨state', hclause, hrec', hdiagnostics⟩ := sourceClause_of_placed hsites hplaced hrec
  refine ⟨(_, state'), ?_, hrec', yields_clause hdiagnostics⟩
  unfold temporalClause
  rw [run_bind (patternOperand_of_resolved hfirst state)]
  dsimp only
  rw [run_bind (patternOperand_of_resolved hsecond state)]
  dsimp only
  rw [run_bind hclause]
  rfl

/-- Within the depth limit, a run yields the normal form of its expression. -/
theorem alternativesFromExprAt_yields
    {clause : HirSpecExpr × List ℕ → TraceSpecClause}
    (hclause : ∀ leaf ∈ (expr.formula path).leaves, m.clauseOf leaf = some (clause leaf))
    (hplaced : ∀ leaf ∈ (expr.formula path).leaves, m.Placed sites leaf)
    (hrec : m.Recorded sites state) :
    ∃ result, m.alternativesFromExprAt expr path state = .ok result ∧
      m.Recorded sites result.2 ∧
      m.Yields ((expr.formula path).dnf.map (List.map clause)) state result := by
  induction expr generalizing path state with
  | atom pattern =>
    have hmem := List.mem_singleton_self (HirSpecExpr.atom pattern, path)
    unfold alternativesFromExprAt
    rw [if_neg (within_depth hplaced)]
    exact patternClause_of_resolved hsites (hplaced _ hmem) (hclause _ hmem) hrec
  | allow pattern span =>
    have hmem := List.mem_singleton_self (HirSpecExpr.allow pattern span, path)
    unfold alternativesFromExprAt
    rw [if_neg (within_depth hplaced)]
    exact patternClause_of_resolved hsites (hplaced _ hmem) (hclause _ hmem) hrec
  | deny pattern span =>
    have hmem := List.mem_singleton_self (HirSpecExpr.deny pattern span, path)
    unfold alternativesFromExprAt
    rw [if_neg (within_depth hplaced)]
    exact patternClause_of_resolved hsites (hplaced _ hmem) (hclause _ hmem) hrec
  | before before after span =>
    have hmem := List.mem_singleton_self (HirSpecExpr.before before after span, path)
    obtain ⟨guard, hguard, h⟩ := Option.bind_eq_some_iff.mp (hclause _ hmem)
    obtain ⟨target, htarget, h⟩ := Option.bind_eq_some_iff.mp h
    have heq := Option.some.inj h
    change ∃ result, _ ∧ _ ∧ m.Yields [[clause (.before before after span, path)]] state result
    unfold alternativesFromExprAt
    rw [if_neg (within_depth hplaced), ← heq]
    exact temporalClause_of_resolved hsites (hplaced _ hmem) hguard htarget hrec
  | after after before span =>
    have hmem := List.mem_singleton_self (HirSpecExpr.after after before span, path)
    obtain ⟨target, htarget, h⟩ := Option.bind_eq_some_iff.mp (hclause _ hmem)
    obtain ⟨obligation, hobligation, h⟩ := Option.bind_eq_some_iff.mp h
    have heq := Option.some.inj h
    change ∃ result, _ ∧ _ ∧ m.Yields [[clause (.after after before span, path)]] state result
    unfold alternativesFromExprAt
    rw [if_neg (within_depth hplaced), ← heq]
    exact temporalClause_of_resolved hsites (hplaced _ hmem) htarget hobligation hrec
  | and lhs rhs span hl hr =>
    obtain ⟨hcl, hcr⟩ := List.forall_mem_append.mp hclause
    obtain ⟨hpl, hpr⟩ := List.forall_mem_append.mp hplaced
    have hwhole : ((HirSpecExpr.and lhs rhs span).formula path).dnf.map (List.map clause) =
        Formula.conjoin ((lhs.formula (path ++ [0])).dnf.map (List.map clause))
          ((rhs.formula (path ++ [1])).dnf.map (List.map clause)) :=
      (Formula.conjoin_map ..).symm
    rw [hwhole]
    have hne := dnf_map_ne_nil clause (lhs.formula (path ++ [0]))
    have hne' := dnf_map_ne_nil clause (rhs.formula (path ++ [1]))
    unfold alternativesFromExprAt
    rw [if_neg (within_depth hplaced)]
    apply yields_operands (fun state hrec => hl hcl hpl hrec) (fun state hrec => hr hcr hpr hrec)
    · exact Formula.size_le_conjoin_left _ (List.length_pos_iff.mpr hne')
    · exact Formula.size_le_conjoin_right _ (List.length_pos_iff.mpr hne)
    · rw [conjoinAlternatives_eq m.limits hne hne']
      split_ifs <;> rfl
    · exact hrec
  | or lhs rhs span hl hr =>
    obtain ⟨hcl, hcr⟩ := List.forall_mem_append.mp hclause
    obtain ⟨hpl, hpr⟩ := List.forall_mem_append.mp hplaced
    have hwhole : ((HirSpecExpr.or lhs rhs span).formula path).dnf.map (List.map clause) =
        (lhs.formula (path ++ [0])).dnf.map (List.map clause) ++
          (rhs.formula (path ++ [1])).dnf.map (List.map clause) := List.map_append
    rw [hwhole]
    have hne := dnf_map_ne_nil clause (lhs.formula (path ++ [0]))
    have hne' := dnf_map_ne_nil clause (rhs.formula (path ++ [1]))
    unfold alternativesFromExprAt
    rw [if_neg (within_depth hplaced)]
    apply yields_operands (fun state hrec => hl hcl hpl hrec) (fun state hrec => hr hcr hpr hrec)
    · rw [Formula.size_append]
      exact Nat.le_add_right _ _
    · rw [Formula.size_append]
      exact Nat.le_add_left _ _
    · have hiff := disjunctionFits_iff m.limits hne hne'
      by_cases hfits : disjunctionFits m.limits
          ((lhs.formula (path ++ [0])).dnf.map (List.map clause))
          ((rhs.formula (path ++ [1])).dnf.map (List.map clause)) = true
      · rw [if_pos hfits, if_pos (hiff.mp hfits)]
      · rw [if_neg hfits, if_neg fun h => hfits (hiff.mpr h)]
    · exact hrec

end

/-! Expressions beyond the depth limit. -/

/-- A disjunction nested to the left, of one more operand than its depth. -/
def orChain (operand : HirSpecExpr) : ℕ → HirSpecExpr
  | 0 => operand
  | n + 1 => .or (orChain operand n) operand operand.span

variable {operand : HirSpecExpr}

theorem size_orChain (hleaf : ∀ path, operand.formula path = .leaf (operand, path)) (n : ℕ) :
    Formula.size ((orChain operand n).formula path).dnf = 2 * (n + 1) := by
  induction n generalizing path with
  | zero =>
    rw [orChain, hleaf]
    rfl
  | succ n ih =>
    have hlast : Formula.size (operand.formula (path ++ [1])).dnf = 2 := by
      rw [hleaf]
      rfl
    change Formula.size (_ ++ _) = _
    rw [Formula.size_append, ih, hlast]
    omega

theorem mem_leaves_orChain (hleaf : ∀ path, operand.formula path = .leaf (operand, path)) {n : ℕ}
    (h : leaf ∈ ((orChain operand n).formula path).leaves) :
    leaf.1 = operand := by
  induction n generalizing path with
  | zero =>
    rw [orChain, hleaf] at h
    rw [List.mem_singleton.mp h]
  | succ n ih =>
    rcases List.mem_append.mp h with h | h
    · exact ih h
    · rw [hleaf] at h
      rw [List.mem_singleton.mp h]

theorem alternativesFromExprAt_orChain {n : ℕ} (h : m.limits.depth < path.length + n)
    (state : MaterializerState Site) :
    m.alternativesFromExprAt (orChain operand n) path state =
      .ok (none, { state with
        diagnostics := state.diagnostics ++ [⟨operand.span, depthMessage⟩] }) := by
  have hspan : ∀ n, (orChain operand n).span = operand.span := by
    intro n
    cases n <;> rfl
  by_cases hdepth : m.limits.depth < path.length
  · unfold alternativesFromExprAt
    rw [if_pos hdepth, hspan, run_bind (run_diagnostic ..)]
    rfl
  · induction n generalizing path with
    | zero => exact absurd h hdepth
    | succ n ih =>
      have hleft : m.alternativesFromExprAt (orChain operand n) (path ++ [0]) state =
          .ok (none, { state with
            diagnostics := state.diagnostics ++ [⟨operand.span, depthMessage⟩] }) := by
        by_cases hnext : m.limits.depth < (path ++ [0]).length
        · unfold alternativesFromExprAt
          rw [if_pos hnext, hspan, run_bind (run_diagnostic ..)]
          rfl
        · apply ih _ hnext
          rw [List.length_append, List.length_singleton]
          omega
      rw [orChain, alternativesFromExprAt, if_neg hdepth, run_bind hleft]
      rfl

end TraceSpecMaterializer
end EtasFrontend.Residual
