import EtasFrontend.Syntax.BinaryExpr

/-! A binary expression is the tree that its operands and operators stand for. -/
namespace EtasFrontend.Syntax
open Lib (OperatorTree)

def BinaryOp.prec : BinaryOp → ℕ
  | .orOr => 1
  | .andAnd => 2
  | .eqEq | .bangEq => 3
  | .lt | .ltEq | .gt | .gtEq => 4
  | .add | .sub => 5
  | .mul | .div | .rem => 6

variable {Span State Operand : Type}

/-- The expression of a tree. -/
def toExpr (cover : Span → Span → Span) :
    OperatorTree (Expr Span Operand) BinaryOp → Expr Span Operand
  | .operand e => e
  | .binary lhs op rhs => .binary (toExpr cover lhs) op (toExpr cover rhs)
      (cover (toExpr cover lhs).span (toExpr cover rhs).span)

/-! How much of the limits a tree uses: the operators that one loop reads, and the calls for right
operands inside one another. -/

def leftSpine {α : Type} : OperatorTree α BinaryOp → ℕ
  | .operand _ => 0
  | .binary lhs _ _ => leftSpine lhs + 1

def ChainsWithin {α : Type} (limit : ℕ) : OperatorTree α BinaryOp → Prop
  | .operand _ => True
  | .binary lhs _ rhs => leftSpine lhs + 1 ≤ limit ∧ ChainsWithin limit lhs ∧ ChainsWithin limit rhs

def rightNesting {α : Type} : OperatorTree α BinaryOp → ℕ
  | .operand _ => 0
  | .binary lhs _ rhs => max (rightNesting lhs) (rightNesting rhs + 1)

/-- The tree stays within the limits, when an operand takes so many levels. -/
def Fits {α : Type} (budget : Option (BodyParseBudget Span)) (levels : ℕ)
    (tree : OperatorTree α BinaryOp) : Prop :=
  ∀ b ∈ budget, b.error = none ∧ b.depth + rightNesting tree + levels ≤ b.maxRecursion ∧
    ChainsWithin b.maxRecursion tree

/-- One level deeper. -/
def entered (budget : Option (BodyParseBudget Span)) : Option (BodyParseBudget Span) :=
  budget.map fun b => { b with depth := b.depth + 1 }

/-! The sequence of operands and operators that the parser is at. -/

section
variable (unaryExpr : Parser Span State → Expr Span Operand × Parser Span State) (levels : ℕ)

/-- The unary operand at the first place is the expression, and it ends at the second. -/
def Reads (s : Cursor Span × State) (u : Expr Span Operand) (s' : Cursor Span × State) : Prop :=
  ∀ budget : Option (BodyParseBudget Span),
    (∀ b ∈ budget, b.error = none ∧ b.depth + levels ≤ b.maxRecursion) →
      unaryExpr ⟨s.1, budget, s.2⟩ = (u, ⟨s'.1, budget, s'.2⟩)

/-- Operators, each with its right operand, up to a token that is no operator. -/
inductive Follows : Cursor Span × State → List (BinaryOp × Expr Span Operand) →
    Cursor Span × State → Prop
  | nil {s : Cursor Span × State} (h : binaryOp s.1.peek.kind = none) : Follows s [] s
  | cons {s s' s'' : Cursor Span × State} {op : BinaryOp} {v : Expr Span Operand}
      {rest : List (BinaryOp × Expr Span Operand)}
      (hop : binaryOp s.1.peek.kind = some (op, op.prec))
      (hv : Reads unaryExpr levels (s.1.bump, s.2) v s') (h : Follows s' rest s'') :
      Follows s ((op, v) :: rest) s''

end

section
variable (cover : Span → Span → Span)
  (unaryExpr : Parser Span State → Expr Span Operand × Parser Span State) (levels : ℕ)

/-- What a call makes of a sequence: the tree of the operators that bind tightly enough. It ends
before the others. -/
structure Climbed (minPrec : ℕ) (rest : List (BinaryOp × Expr Span Operand))
    (finish : Cursor Span × State) (tree : OperatorTree (Expr Span Operand) BinaryOp)
    (spot : Cursor Span × State) (taken left : List (BinaryOp × Expr Span Operand)) : Prop where
  climbs : tree.Climbs BinaryOp.prec
  split : rest = taken ++ left
  tight : ∀ entry ∈ taken, minPrec ≤ entry.1.prec
  loose : ∀ entry ∈ left.head?, entry.1.prec < minPrec
  follows : Follows unaryExpr levels spot left finish

/-- The loop extends its left operand. -/
def RestClimbs (rest : List (BinaryOp × Expr Span Operand)) : Prop :=
  ∀ (minPrec : ℕ) (s finish : Cursor Span × State)
    (lhs : OperatorTree (Expr Span Operand) BinaryOp), lhs.Climbs BinaryOp.prec →
    (∀ entry ∈ rest.head?, minPrec ≤ entry.1.prec →
      ∀ o ∈ lhs.operators, entry.1.prec ≤ o.prec) →
    Follows unaryExpr levels s rest finish →
    ∃ tree spot taken left, Climbed unaryExpr levels minPrec rest finish tree spot taken left ∧
      tree.first = lhs.first ∧ tree.rest = lhs.rest ++ taken ∧
      (∀ budget : Option (BodyParseBudget Span), Fits budget levels tree → Fits budget levels lhs) ∧
      ∀ budget, Fits budget levels tree → ∃ bound, ∀ fuel ≥ bound,
        binaryRest cover unaryExpr fuel minPrec (toExpr cover lhs) (leftSpine lhs)
            ⟨s.1, budget, s.2⟩ = some (toExpr cover tree, ⟨spot.1, budget, spot.2⟩)

/-- A call reads its first operand and runs the loop. -/
def ExprClimbs (rest : List (BinaryOp × Expr Span Operand)) : Prop :=
  ∀ (minPrec : ℕ) (s s' finish : Cursor Span × State) (u : Expr Span Operand),
    Reads unaryExpr levels s u s' → Follows unaryExpr levels s' rest finish →
    ∃ tree spot taken left, Climbed unaryExpr levels minPrec rest finish tree spot taken left ∧
      tree.first = u ∧ tree.rest = taken ∧
      ∀ budget, Fits (entered budget) levels tree → ∃ bound, ∀ fuel ≥ bound,
        binaryExpr cover unaryExpr fuel minPrec ⟨s.1, budget, s.2⟩ =
          some (toExpr cover tree, ⟨spot.1, budget, spot.2⟩)

variable {cover unaryExpr levels} {rest : List (BinaryOp × Expr Span Operand)}

theorem RestClimbs.expr
    (h : RestClimbs cover unaryExpr levels rest) : ExprClimbs cover unaryExpr levels rest := by
  intro minPrec s s' finish u hu hrest
  obtain ⟨tree, spot, taken, left, hclimbed, hfirst, htaken, -, hruns⟩ :=
    h minPrec s' finish (.operand u) trivial (fun _ _ _ o ho => absurd ho List.not_mem_nil) hrest
  refine ⟨tree, spot, taken, left, hclimbed, hfirst, htaken, fun budget hfits => ?_⟩
  obtain ⟨bound, hbound⟩ := hruns (entered budget) hfits
  refine ⟨bound + 1, fun fuel hfuel => ?_⟩
  obtain ⟨fuel, rfl⟩ : ∃ n, fuel = n + 1 := ⟨fuel - 1, by omega⟩
  have hloop : binaryRest cover unaryExpr fuel minPrec u 0 ⟨s'.1, entered budget, s'.2⟩ = _ :=
    hbound fuel (by omega)
  have hread : unaryExpr ⟨s.1, entered budget, s.2⟩ = (u, ⟨s'.1, entered budget, s'.2⟩) :=
    hu _ fun b hb => ⟨(hfits b hb).1, by have := (hfits b hb).2.1; omega⟩
  rw [binaryExpr]
  cases budget with
  | none =>
    simp only [Parser.withBodyRecursion]
    rw [show entered none = none from rfl] at hread hloop
    rw [hread]
    exact hloop
  | some b =>
    obtain ⟨herror, hdepth, -⟩ := hfits { b with depth := b.depth + 1 } rfl
    have hopen : (b.error.isSome || decide (b.depth ≥ b.maxRecursion)) = false := by
      rw [Bool.or_eq_false_iff, decide_eq_false_iff_not]
      exact ⟨by simpa using herror, by dsimp only at hdepth; omega⟩
    simp only [Parser.withBodyRecursion, hopen]
    rw [show entered (some b) = some { b with depth := b.depth + 1 } from rfl] at hread hloop
    rw [hread]
    simp only [Bool.false_eq_true, if_false]
    rw [hloop]
    rfl

theorem Fits.parts {α : Type} {budget : Option (BodyParseBudget Span)} {lhs rhs : OperatorTree α BinaryOp}
    {op : BinaryOp} (h : Fits budget levels (.binary lhs op rhs)) :
    Fits budget levels lhs ∧ Fits (entered budget) levels rhs ∧
      ∀ b ∈ budget, leftSpine lhs + 1 ≤ b.maxRecursion := by
  refine ⟨fun b hb => ?_, fun b hb => ?_, fun b hb => (h b hb).2.2.1⟩
  · obtain ⟨herror, hdepth, hchains⟩ := h b hb
    rw [rightNesting] at hdepth
    exact ⟨herror, by omega, hchains.2.1⟩
  · obtain ⟨b', hb', rfl⟩ := Option.map_eq_some_iff.mp hb
    obtain ⟨herror, hdepth, hchains⟩ := h b' hb'
    rw [rightNesting] at hdepth
    refine ⟨herror, ?_, hchains.2.2⟩
    dsimp only
    omega

variable (cover) in
theorem restClimbs (rest : List (BinaryOp × Expr Span Operand)) :
    RestClimbs cover unaryExpr levels rest := by
  induction hlength : rest.length using Nat.strongRecOn generalizing rest with
  | ind length ih =>
    subst hlength
    intro minPrec s finish lhs hlhs hnext hfollows
    cases hfollows with
    | nil hend =>
      refine ⟨lhs, s, [], [], ⟨hlhs, rfl, by simp, by simp, .nil hend⟩, rfl,
        (List.append_nil _).symm, fun _ h => h, fun budget _ => ⟨1, fun fuel hfuel => ?_⟩⟩
      obtain ⟨fuel, rfl⟩ : ∃ n, fuel = n + 1 := ⟨fuel - 1, by omega⟩
      simp only [binaryRest, hend]
    | @cons _ s' _ op v rest hop hv hrest =>
      by_cases htight : op.prec < minPrec
      · -- the operator belongs to a call further out
        refine ⟨lhs, s, [], (op, v) :: rest, ⟨hlhs, rfl, by simp, by simpa using htight,
          .cons hop hv hrest⟩, rfl, (List.append_nil _).symm, fun _ h => h,
          fun budget _ => ⟨1, fun fuel hfuel => ?_⟩⟩
        obtain ⟨fuel, rfl⟩ : ∃ n, fuel = n + 1 := ⟨fuel - 1, by omega⟩
        simp only [binaryRest, hop, if_pos htight]
      · obtain ⟨rhs, spot, taken, left, hr, hrfirst, hrrest, hrruns⟩ :=
          (ih rest.length (by simp) rest rfl).expr (op.prec + 1) _ s' finish v hv hrest
        have hclimbs : (OperatorTree.binary lhs op rhs).Climbs BinaryOp.prec := by
          refine ⟨hlhs, hr.climbs, hnext (op, v) rfl (not_lt.mp htight), fun o ho => ?_⟩
          rw [OperatorTree.operators, hrrest] at ho
          obtain ⟨entry, hentry, rfl⟩ := List.mem_map.mp ho
          exact hr.tight entry hentry
        have hshorter : left.length < ((op, v) :: rest).length := by
          rw [hr.split, List.length_cons, List.length_append]
          omega
        have hleft : ∀ entry ∈ left.head?, minPrec ≤ entry.1.prec →
            ∀ o ∈ (OperatorTree.binary lhs op rhs).operators, entry.1.prec ≤ o.prec := by
          intro entry hentry _ o ho
          have hloose := hr.loose entry hentry
          have hroot := OperatorTree.operators_extend_lt hclimbs o ho
          omega
        obtain ⟨tree, spot', taken', left', ht, htfirst, htrest, htfits, htruns⟩ :=
          ih left.length hshorter left rfl minPrec spot finish _ hclimbs hleft hr.follows
        refine ⟨tree, spot', (op, v) :: taken ++ taken', left', ⟨ht.climbs, ?_, ?_, ht.loose,
          ht.follows⟩, htfirst, ?_, fun budget hfits => (htfits budget hfits).parts.1, ?_⟩
        · rw [hr.split, ht.split, List.cons_append, List.cons_append, List.append_assoc]
        · intro entry hentry
          rw [List.cons_append, List.mem_cons, List.mem_append] at hentry
          rcases hentry with rfl | hentry | hentry
          · exact not_lt.mp htight
          · have := hr.tight entry hentry
            omega
          · exact ht.tight entry hentry
        · rw [htrest, OperatorTree.rest, hrfirst, hrrest]
          simp
        · intro budget hfits
          obtain ⟨-, hrfits, hchain⟩ := (htfits budget hfits).parts
          obtain ⟨bound, hbound⟩ := hrruns budget hrfits
          obtain ⟨bound', hbound'⟩ := htruns budget hfits
          refine ⟨max bound bound' + 1, fun fuel hfuel => ?_⟩
          obtain ⟨fuel, rfl⟩ : ∃ n, fuel = n + 1 := ⟨fuel - 1, by omega⟩
          have hstep : (⟨s.1, budget, s.2⟩ : Parser Span State).bodyChainStep (leftSpine lhs) =
              (true, leftSpine lhs + 1, ⟨s.1, budget, s.2⟩) := by
            rw [Parser.bodyChainStep, if_neg]
            cases budget with
            | none => exact Bool.false_ne_true
            | some b =>
              have := hchain b rfl
              rw [Option.any_some, decide_eq_true_eq]
              omega
          have hright := hbound fuel (by omega)
          have hloop := hbound' fuel (by omega)
          simp only [binaryRest, hop, if_neg htight, hstep]
          rw [hright]
          exact hloop

variable (cover) in
/-- A sequence of operands stands for one tree, and that is the expression that the parser builds
when the tree stays within its limits. -/
theorem binaryExpr_climbs {s s' finish : Cursor Span × State} {u : Expr Span Operand}
    (hu : Reads unaryExpr levels s u s')
    (hrest : Follows unaryExpr levels s' rest finish) :
    ∃ tree : OperatorTree (Expr Span Operand) BinaryOp,
      (tree.Climbs BinaryOp.prec ∧ tree.first = u ∧ tree.rest = rest) ∧
      (∀ other : OperatorTree (Expr Span Operand) BinaryOp,
        other.Climbs BinaryOp.prec → other.first = u → other.rest = rest → other = tree) ∧
      ∀ budget, Fits (entered budget) levels tree → ∃ bound, ∀ fuel ≥ bound,
        binaryExpr cover unaryExpr fuel 0 ⟨s.1, budget, s.2⟩ =
          some (toExpr cover tree, ⟨finish.1, budget, finish.2⟩) := by
  obtain ⟨tree, spot, taken, left, h, hfirst, htaken, hruns⟩ :=
    (restClimbs cover rest).expr 0 s s' finish u hu hrest
  obtain rfl : left = [] := by
    cases left with
    | nil => rfl
    | cons entry left => exact absurd (h.loose entry rfl) (Nat.not_lt_zero _)
  obtain rfl : rest = taken := by rw [h.split, List.append_nil]
  obtain rfl : spot = finish := by
    cases h.follows
    rfl
  refine ⟨tree, ⟨h.climbs, hfirst, htaken⟩, fun other hother hfirst' hrest' => ?_, hruns⟩
  exact hother.unique h.climbs (hfirst'.trans hfirst.symm) (hrest'.trans htaken.symm)

end

/-- The cursor in `a + b * c`. -/
def sumCursor (position : ℕ) : Cursor (ℕ × ℕ) :=
  ⟨[⟨.ident, (0, 1)⟩, ⟨.punct .plus, (2, 3)⟩, ⟨.ident, (4, 5)⟩, ⟨.punct .star, (6, 7)⟩,
    ⟨.ident, (8, 9)⟩, ⟨.eof, (9, 9)⟩], position, List.cons_ne_nil _ _⟩

/-- A name, as its place among the tokens. -/
def nameExpr (parser : Parser (ℕ × ℕ) Unit) : Expr (ℕ × ℕ) ℕ × Parser (ℕ × ℕ) Unit :=
  (.unary parser.cursor.position parser.cursor.peek.span,
    { parser with cursor := parser.cursor.bump })

theorem binaryExpr_climbs_sum : ∃ bound, ∀ fuel ≥ bound,
    binaryExpr (fun a b => (a.1, b.2)) nameExpr fuel 0 ⟨sumCursor 0, none, ()⟩ =
      some (.binary (.unary 0 (0, 1)) .add
        (.binary (.unary 2 (4, 5)) .mul (.unary 4 (8, 9)) (4, 9)) (0, 9),
        ⟨sumCursor 5, none, ()⟩) := by
  have hread (position : ℕ) (hname : position ∈ [0, 2, 4]) :
      Reads nameExpr 0 (sumCursor position, ())
        (.unary position (sumCursor position).peek.span) (sumCursor (position + 1), ()) := by
    simp only [List.mem_cons, List.not_mem_nil, or_false] at hname
    rcases hname with rfl | rfl | rfl <;> exact fun _ _ => rfl
  have hend : Follows nameExpr 0 (sumCursor 5, ()) [] (sumCursor 5, ()) := .nil rfl
  have hproduct : Follows nameExpr 0 (sumCursor 3, ()) [(.mul, .unary 4 (8, 9))]
      (sumCursor 5, ()) := .cons rfl (hread 4 (by decide)) hend
  have hsum : Follows nameExpr 0 (sumCursor 1, ())
      [(.add, .unary 2 (4, 5)), (.mul, .unary 4 (8, 9))] (sumCursor 5, ()) :=
    .cons rfl (hread 2 (by decide)) hproduct
  obtain ⟨tree, -, hunique, hruns⟩ :=
    binaryExpr_climbs (fun a b : ℕ × ℕ => (a.1, b.2)) (hread 0 (by decide)) hsum
  have htree := hunique (.binary (.operand (.unary 0 (0, 1))) .add
    (.binary (.operand (.unary 2 (4, 5))) .mul (.operand (.unary 4 (8, 9)))))
    (by simp [OperatorTree.Climbs, OperatorTree.operators, OperatorTree.rest, BinaryOp.prec]) rfl rfl
  subst htree
  exact hruns none fun b hb => by cases hb

end EtasFrontend.Syntax
