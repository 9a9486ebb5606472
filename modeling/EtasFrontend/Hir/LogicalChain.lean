import EtasFrontend.Hir.Program
import EtasFrontend.Lib.ShortCircuit
import Mathlib.Data.List.Induction

/-! Chains of one logical operator: lowered to a balanced tree, left-nested in the source. -/
namespace EtasFrontend.Hir
open Lib

/-- A source expression; forms that are not binary are opaque. -/
inductive Expr (α : Type) where
  | other (form : α) (span : Span)
  | binary (op : HirBinaryOp) (lhs rhs : Expr α) (span : Span)

def Expr.span {α : Type} : Expr α → Span
  | .other _ span | .binary _ _ _ span => span

/-- An expression of the arena with its entry in the source map. -/
structure HirExprNode where
  expr : HirExpr
  span : Span

/-- The arena of expressions, and the rest of the lowering context. -/
structure ExprLowering (κ : Type) where
  nodes : List HirExprNode
  rest : κ

/-- What lowering a form adds to the arena: new nodes, one of which is the form itself. -/
structure LoweredForm (κ : Type) where
  nodes : List HirExprNode
  root : Fin nodes.length
  rest : κ

namespace ExprLowering
variable {α κ : Type}

def allocExpr (expr : HirExpr) (span : Span) (s : ExprLowering κ) : HirExprId × ExprLowering κ :=
  (s.nodes.length, { s with nodes := s.nodes ++ [⟨expr, span⟩] })

def logicalChainOp : HirBinaryOp → Bool
  | .andAnd | .orOr => true
  | _ => false

/-- The right operands on the way down, and the operand at the end. -/
def collectLeaves (op : HirBinaryOp) : Expr α → List (Expr α) → List (Expr α)
  | .binary op' lhs rhs span, leaves =>
    if op' = op then collectLeaves op lhs (leaves ++ [rhs])
    else leaves ++ [.binary op' lhs rhs span]
  | .other form span, leaves => leaves ++ [.other form span]

def chainLeaves (op : HirBinaryOp) (expr : Expr α) : List (Expr α) :=
  (collectLeaves op expr []).reverse

/-- The source expression as a tree of the operator. -/
def chain (op : HirBinaryOp) : Expr α → Bracketing (Expr α)
  | .binary op' lhs rhs span =>
    if op' = op then .node (chain op lhs) (.leaf rhs) else .leaf (.binary op' lhs rhs span)
  | .other form span => .leaf (.other form span)

theorem collectLeaves_eq (op : HirBinaryOp) (expr : Expr α) (leaves : List (Expr α)) :
    collectLeaves op expr leaves = leaves ++ (chain op expr).leaves.reverse := by
  induction expr generalizing leaves with
  | other form span => rfl
  | binary op' lhs rhs span hl hr =>
    by_cases hop : op' = op
    · simp [collectLeaves, chain, hop, hl, Bracketing.leaves]
    · simp [collectLeaves, chain, hop, Bracketing.leaves]

theorem chainLeaves_eq (op : HirBinaryOp) (expr : Expr α) :
    chainLeaves op expr = (chain op expr).leaves := by
  simp [chainLeaves, collectLeaves_eq]

variable {op : HirBinaryOp}

theorem sizeOf_le_of_mem_chainLeaves {expr leaf : Expr α} (h : leaf ∈ chainLeaves op expr) :
    sizeOf leaf ≤ sizeOf expr := by
  rw [chainLeaves_eq] at h
  induction expr with
  | other form span => rw [List.mem_singleton.mp h]
  | binary op' lhs rhs span hl hr =>
    by_cases hop : op' = op
    · simp only [chain, hop, if_true, Bracketing.leaves, List.mem_append,
        List.mem_singleton] at h
      rcases h with h | rfl
      · have hle := hl h
        simp only [Expr.binary.sizeOf_spec]
        omega
      · simp only [Expr.binary.sizeOf_spec]
        omega
    · simp only [chain, hop, if_false] at h
      rw [List.mem_singleton.mp h]

theorem sizeOf_lt_of_mem_chainLeaves {lhs rhs leaf : Expr α} {span : Span}
    (h : leaf ∈ chainLeaves op (.binary op lhs rhs span)) :
    sizeOf leaf < sizeOf (Expr.binary op lhs rhs span) := by
  have hmem : leaf ∈ chainLeaves op lhs ∨ leaf = rhs := by
    rw [chainLeaves_eq] at h ⊢
    simpa [chain, Bracketing.leaves] using h
  rcases hmem with hmem | rfl
  · have hle := sizeOf_le_of_mem_chainLeaves hmem
    simp only [Expr.binary.sizeOf_spec]
    omega
  · simp only [Expr.binary.sizeOf_spec]
    omega

/-! Lowering. The lowering of the other forms and the cover of two spans are parameters. -/

/-- Leaves lowered from left to right, with their spans. -/
def lowerLeaves {β : Type} (lower : β → ExprLowering κ → Option (HirExprId × ExprLowering κ))
    (span : β → Span) :
    List β → ExprLowering κ → Option (List (HirExprId × Span) × ExprLowering κ)
  | [], s => some ([], s)
  | leaf :: leaves, s => do
    let (id, s) ← lower leaf s
    let (nodes, s) ← lowerLeaves lower span leaves s
    some ((id, span leaf) :: nodes, s)

section
variable (cover : Span → Span → Span)

/-- A pair becomes a node; an odd last element is carried over. -/
def pairRound (op : HirBinaryOp) :
    List (HirExprId × Span) → ExprLowering κ → List (HirExprId × Span) × ExprLowering κ
  | (lhs, lhsSpan) :: (rhs, rhsSpan) :: nodes, s =>
    let node := allocExpr (.binary op lhs rhs) (cover lhsSpan rhsSpan) s
    let next := pairRound op nodes node.2
    ((node.1, cover lhsSpan rhsSpan) :: next.1, next.2)
  | nodes, s => (nodes, s)

theorem length_pairRound (op : HirBinaryOp) (nodes : List (HirExprId × Span))
    (s : ExprLowering κ) : (pairRound cover op nodes s).1.length = (nodes.length + 1) / 2 := by
  induction nodes using List.twoStepInduction generalizing s with
  | nil => simp [pairRound]
  | singleton node => simp [pairRound]
  | cons_cons lhs rhs nodes ih _ =>
    simp only [pairRound, List.length_cons, ih]
    omega

def pairRounds (op : HirBinaryOp) (nodes : List (HirExprId × Span)) (s : ExprLowering κ) :
    List (HirExprId × Span) × ExprLowering κ :=
  if nodes.length > 1 then pairRounds op (pairRound cover op nodes s).1 (pairRound cover op nodes s).2
  else (nodes, s)
termination_by nodes.length
decreasing_by
  rw [length_pairRound]
  omega

/-- The last node that is left; `none` for the panic on an empty list. -/
def balance (op : HirBinaryOp) (nodes : List (HirExprId × Span)) (s : ExprLowering κ) :
    Option (HirExprId × ExprLowering κ) :=
  let (nodes, s) := pairRounds cover op nodes s
  nodes.getLast?.map fun node => (node.1, s)

variable (lowerForm : α → ExprLowering κ → LoweredForm κ)

/-- The other forms only add nodes to the arena. -/
def lowerOther (form : α) (s : ExprLowering κ) : HirExprId × ExprLowering κ :=
  let lowered := lowerForm form s
  (s.nodes.length + lowered.root, ⟨s.nodes ++ lowered.nodes, lowered.rest⟩)

def lowerExpr : Expr α → ExprLowering κ → Option (HirExprId × ExprLowering κ)
  | .other form _, s => some (lowerOther lowerForm form s)
  | .binary op lhs rhs span, s =>
    if logicalChainOp op then do
      let (nodes, s) ← lowerLeaves (fun leaf => lowerExpr leaf.1) (fun leaf => leaf.1.span)
        (chainLeaves op (.binary op lhs rhs span)).attach s
      balance cover op nodes s
    else do
      let (lhs, s) ← lowerExpr lhs s
      let (rhs, s) ← lowerExpr rhs s
      some (allocExpr (.binary op lhs rhs) span s)
termination_by expr => sizeOf expr
decreasing_by
  · exact sizeOf_lt_of_mem_chainLeaves leaf.2
  · simp only [Expr.binary.sizeOf_spec]
    omega
  · simp only [Expr.binary.sizeOf_spec]
    omega

def lowerLogicalBinaryChain (expr : Expr α) (op : HirBinaryOp) (s : ExprLowering κ) :
    Option (HirExprId × ExprLowering κ) := do
  let (nodes, s) ← lowerLeaves (lowerExpr cover lowerForm) Expr.span (chainLeaves op expr) s
  balance cover op nodes s

end

/-! The tree that is built. -/

/-- The operator nodes above given nodes of the arena, read as a tree. -/
inductive Reads (nodes : List HirExprNode) (op : HirBinaryOp) :
    HirExprId → Bracketing HirExprId → Prop where
  | leaf (id : HirExprId) : Reads nodes op id (.leaf id)
  | node {id lhs rhs : HirExprId} {span : Span} {l r : Bracketing HirExprId}
    (h : nodes[id]? = some ⟨.binary op lhs rhs, span⟩) (hl : Reads nodes op lhs l)
    (hr : Reads nodes op rhs r) : Reads nodes op id (.node l r)

theorem Reads.mono {nodes nodes' : List HirExprNode} {id : HirExprId} {t : Bracketing HirExprId}
    (hpre : nodes <+: nodes') (h : Reads nodes op id t) :
    Reads nodes' op id t := by
  induction h with
  | leaf id => exact .leaf id
  | node h hl hr ihl ihr =>
    obtain ⟨rest, rfl⟩ := hpre
    exact .node ((List.getElem?_append_left (List.getElem?_eq_some_iff.mp h).1).trans h) ihl ihr

/-- The nodes of a round are trees over the leaves, in order, and lie in the arena from `lo` on. -/
structure Reading (lo : ℕ) (op : HirBinaryOp) (arena : List HirExprNode)
    (nodes : List (HirExprId × Span)) (leaves : List HirExprId) : Prop where
  trees : ∃ trees : List (Bracketing HirExprId),
    List.Forall₂ (fun node t => Reads arena op node.1 t) nodes trees ∧
      trees.flatMap Bracketing.leaves = leaves
  within : ∀ node ∈ nodes, lo ≤ node.1 ∧ node.1 < arena.length

variable {nodes : List (HirExprId × Span)} {lo : ℕ} {arena : List HirExprNode}

theorem Reading.of_leaves (h : ∀ node ∈ nodes, lo ≤ node.1 ∧ node.1 < arena.length) :
    Reading lo op arena nodes (nodes.map Prod.fst) := by
  refine ⟨⟨nodes.map fun node => .leaf node.1, ?_, ?_⟩, h⟩
  · rw [List.forall₂_map_right_iff, List.forall₂_same]
    intro node hnode
    exact .leaf node.1
  · rw [List.flatMap_map, List.map_eq_flatMap]
    rfl

variable {leaves : List HirExprId}

theorem Reading.cons {node : HirExprId × Span} {t : Bracketing HirExprId}
    (hnode : Reads arena op node.1 t) (hin : lo ≤ node.1 ∧ node.1 < arena.length)
    (h : Reading lo op arena nodes leaves) :
    Reading lo op arena (node :: nodes) (t.leaves ++ leaves) := by
  obtain ⟨⟨trees, htrees, rfl⟩, hwithin⟩ := h
  refine ⟨⟨t :: trees, .cons hnode htrees, List.flatMap_cons⟩, ?_⟩
  intro other hother
  rcases List.mem_cons.mp hother with rfl | hother
  · exact hin
  · exact hwithin other hother

theorem Reading.of_cons {node : HirExprId × Span} (h : Reading lo op arena (node :: nodes) leaves) :
    ∃ t rest, leaves = Bracketing.leaves t ++ rest ∧ Reads arena op node.1 t ∧
      (lo ≤ node.1 ∧ node.1 < arena.length) ∧ Reading lo op arena nodes rest := by
  obtain ⟨⟨trees, htrees, rfl⟩, hwithin⟩ := h
  cases htrees with
  | cons hnode htrees =>
    refine ⟨_, _, List.flatMap_cons, hnode, hwithin node List.mem_cons_self, ?_⟩
    exact ⟨⟨_, htrees, rfl⟩, fun other hother => hwithin other (List.mem_cons_of_mem node hother)⟩

theorem Reading.mono {arena arena' : List HirExprNode} (hpre : arena <+: arena')
    (h : Reading lo op arena nodes leaves) : Reading lo op arena' nodes leaves := by
  obtain ⟨⟨trees, htrees, hleaves⟩, hwithin⟩ := h
  refine ⟨⟨trees, htrees.imp fun node t hnode => hnode.mono hpre, hleaves⟩, ?_⟩
  intro node hnode
  exact ⟨(hwithin node hnode).1, (hwithin node hnode).2.trans_le hpre.length_le⟩

section
variable (cover : Span → Span → Span)

theorem pairRound_reading (op : HirBinaryOp)
    (nodes : List (HirExprId × Span)) (s : ExprLowering κ) (hlo : lo ≤ s.nodes.length)
    (h : Reading lo op s.nodes nodes leaves) :
    s.nodes <+: (pairRound cover op nodes s).2.nodes ∧
      Reading lo op (pairRound cover op nodes s).2.nodes (pairRound cover op nodes s).1 leaves := by
  induction nodes using List.twoStepInduction generalizing s leaves with
  | nil => exact ⟨by simp [pairRound], by simpa [pairRound] using h⟩
  | singleton node => exact ⟨by simp [pairRound], by simpa [pairRound] using h⟩
  | cons_cons lhs rhs nodes ih _ =>
    obtain ⟨l, rest, rfl, hl, hlin, h⟩ := h.of_cons
    obtain ⟨r, rest, rfl, hr, hrin, h⟩ := h.of_cons
    let parent := allocExpr (.binary op lhs.1 rhs.1) (cover lhs.2 rhs.2) s
    have hpre : s.nodes <+: parent.2.nodes := List.prefix_append _ _
    have hlt : s.nodes.length < parent.2.nodes.length := by simp [parent, allocExpr]
    obtain ⟨hpre', hread⟩ := ih parent.2 (hlo.trans hpre.length_le) (h.mono hpre)
    have hall := hpre.trans hpre'
    refine ⟨hall, ?_⟩
    rw [← List.append_assoc]
    apply Reading.cons (t := .node l r) _ _ hread
    · -- the new node stays where it was allocated
      refine @Reads.node _ _ _ _ _ (cover lhs.2 rhs.2) _ _ ?_ (hl.mono hall) (hr.mono hall)
      obtain ⟨added, hadded⟩ := hpre'
      change (pairRound cover op nodes parent.2).2.nodes[s.nodes.length]? = _
      rw [← hadded, List.getElem?_append_left hlt]
      simp [parent, allocExpr]
    · exact ⟨hlo, hlt.trans_le hpre'.length_le⟩

theorem pairRounds_reading (op : HirBinaryOp)
    (nodes : List (HirExprId × Span)) (s : ExprLowering κ) (hlo : lo ≤ s.nodes.length)
    (h : Reading lo op s.nodes nodes leaves) :
    s.nodes <+: (pairRounds cover op nodes s).2.nodes ∧
      Reading lo op (pairRounds cover op nodes s).2.nodes (pairRounds cover op nodes s).1 leaves := by
  fun_induction pairRounds cover op nodes s with
  | case1 nodes s hlen ih =>
    obtain ⟨hpre, hread⟩ := pairRound_reading cover op nodes s hlo h
    obtain ⟨hpre', hread'⟩ := ih (hlo.trans hpre.length_le) hread
    exact ⟨hpre.trans hpre', hread'⟩
  | case2 nodes s hlen => exact ⟨List.prefix_rfl, h⟩

theorem length_pairRounds (op : HirBinaryOp)
    (nodes : List (HirExprId × Span)) (s : ExprLowering κ) (h : nodes ≠ []) :
    (pairRounds cover op nodes s).1.length = 1 := by
  have hpos := List.length_pos_iff.mpr h
  fun_induction pairRounds cover op nodes s with
  | case1 nodes s hlen ih =>
    have hround := length_pairRound cover op nodes s
    exact ih (by rw [← List.length_pos_iff]; omega) (by omega)
  | case2 nodes s hlen =>
    simp only
    omega

/-- Balancing reads the nodes as one tree, whose operands are the nodes in order. -/
theorem balance_reads (op : HirBinaryOp)
    (nodes : List (HirExprId × Span)) (s : ExprLowering κ) (hne : nodes ≠ [])
    (hlo : lo ≤ s.nodes.length) (h : ∀ node ∈ nodes, lo ≤ node.1 ∧ node.1 < s.nodes.length) :
    ∃ root s', balance cover op nodes s = some (root, s') ∧ s.nodes <+: s'.nodes ∧
      (lo ≤ root ∧ root < s'.nodes.length) ∧
      ∃ t, Reads s'.nodes op root t ∧ t.leaves = nodes.map Prod.fst := by
  obtain ⟨hpre, hread⟩ := pairRounds_reading cover op nodes s hlo (.of_leaves h)
  obtain ⟨root, hroot⟩ := List.length_eq_one_iff.mp (length_pairRounds cover op nodes s hne)
  rw [hroot] at hread
  obtain ⟨t, rest, hleaves, ht, hin, hrest⟩ := hread.of_cons
  obtain ⟨trees, htrees, rfl⟩ := hrest.trees
  cases htrees
  refine ⟨root.1, _, ?_, hpre, hin, t, ht, ?_⟩
  · simp [balance, hroot]
  · simpa using hleaves.symm

end

/-! Every expression is lowered, to a new node. -/

/-- The arena only grows, and the node lies in the new part. -/
structure Lowered (s : ExprLowering κ) (id : HirExprId) (s' : ExprLowering κ) : Prop where
  grows : s.nodes <+: s'.nodes
  lower : s.nodes.length ≤ id
  upper : id < s'.nodes.length

theorem lowered_allocExpr (expr : HirExpr) (span : Span) (s : ExprLowering κ) :
    Lowered s (allocExpr expr span s).1 (allocExpr expr span s).2 :=
  ⟨List.prefix_append _ _, le_rfl, by simp [allocExpr]⟩

theorem Lowered.of_grows {s s' : ExprLowering κ} {id : HirExprId} {s'' : ExprLowering κ}
    (h : s.nodes <+: s'.nodes) (hid : Lowered s' id s'') : Lowered s id s'' :=
  ⟨h.trans hid.grows, h.length_le.trans hid.lower, hid.upper⟩

theorem lowered_other (lowerForm : α → ExprLowering κ → LoweredForm κ) (form : α)
    (s : ExprLowering κ) :
    Lowered s (lowerOther lowerForm form s).1 (lowerOther lowerForm form s).2 := by
  refine ⟨List.prefix_append _ _, Nat.le_add_right _ _, ?_⟩
  simp only [lowerOther, List.length_append]
  exact Nat.add_lt_add_left (lowerForm form s).root.isLt _

theorem lowerLeaves_total {β : Type}
    {lower : β → ExprLowering κ → Option (HirExprId × ExprLowering κ)} (span : β → Span)
    (leaves : List β) (s : ExprLowering κ)
    (h : ∀ leaf ∈ leaves, ∀ s, ∃ id s', lower leaf s = some (id, s') ∧ Lowered s id s') :
    ∃ nodes s', lowerLeaves lower span leaves s = some (nodes, s') ∧ s.nodes <+: s'.nodes ∧
      nodes.length = leaves.length ∧ (nodes.map Prod.fst).Pairwise (· < ·) ∧
      ∀ node ∈ nodes, s.nodes.length ≤ node.1 ∧ node.1 < s'.nodes.length := by
  induction leaves generalizing s with
  | nil => exact ⟨[], s, rfl, List.prefix_rfl, rfl, List.Pairwise.nil, by simp⟩
  | cons leaf leaves ih =>
    obtain ⟨id, s₁, hleaf, hlow⟩ := h leaf List.mem_cons_self s
    obtain ⟨nodes, s₂, hrest, hpre, hlen, hpair, hwithin⟩ :=
      ih s₁ fun other hother => h other (List.mem_cons_of_mem leaf hother)
    refine ⟨(id, span leaf) :: nodes, s₂, by simp [lowerLeaves, hleaf, hrest],
      hlow.grows.trans hpre, by simp [hlen], ?_, ?_⟩
    · rw [List.map_cons, List.pairwise_cons]
      refine ⟨?_, hpair⟩
      intro other hother
      obtain ⟨node, hnode, rfl⟩ := List.mem_map.mp hother
      exact hlow.upper.trans_le (hwithin node hnode).1
    · intro node hnode
      rcases List.mem_cons.mp hnode with rfl | hnode
      · exact ⟨hlow.lower, hlow.upper.trans_le hpre.length_le⟩
      · exact ⟨hlow.grows.length_le.trans (hwithin node hnode).1, (hwithin node hnode).2⟩

theorem lowerLeaves_map {β γ : Type}
    (lower : γ → ExprLowering κ → Option (HirExprId × ExprLowering κ)) (span : γ → Span)
    (f : β → γ) (leaves : List β) (s : ExprLowering κ) :
    lowerLeaves (fun leaf => lower (f leaf)) (fun leaf => span (f leaf)) leaves s =
      lowerLeaves lower span (leaves.map f) s := by
  induction leaves generalizing s with
  | nil => rfl
  | cons leaf leaves ih => simp only [lowerLeaves, List.map_cons, ih]

variable {cover : Span → Span → Span} {lowerForm : α → ExprLowering κ → LoweredForm κ}

theorem lowerExpr_logical (hop : logicalChainOp op) (lhs rhs : Expr α) (span : Span)
    (s : ExprLowering κ) :
    lowerExpr cover lowerForm (.binary op lhs rhs span) s =
      lowerLogicalBinaryChain cover lowerForm (.binary op lhs rhs span) op s := by
  rw [lowerExpr, if_pos hop, lowerLogicalBinaryChain,
    lowerLeaves_map (lowerExpr cover lowerForm) Expr.span Subtype.val,
    List.attach_map_subtype_val]

theorem leaves_ne_nil (t : Bracketing (Expr α)) : t.leaves ≠ [] := by
  induction t with
  | leaf a => simp [Bracketing.leaves]
  | node l r hl hr => simp [Bracketing.leaves, hl]

/-- A chain whose leaves are lowered is lowered to a tree over them. -/
theorem chain_reads (expr : Expr α) (op : HirBinaryOp) (s : ExprLowering κ)
    (h : ∀ leaf ∈ chainLeaves op expr, ∀ s, ∃ id s',
      lowerExpr cover lowerForm leaf s = some (id, s') ∧ Lowered s id s') :
    ∃ nodes s₁ root s₂,
      lowerLeaves (lowerExpr cover lowerForm) Expr.span (chainLeaves op expr) s =
          some (nodes, s₁) ∧
        lowerLogicalBinaryChain cover lowerForm expr op s = some (root, s₂) ∧
        s₁.nodes <+: s₂.nodes ∧ nodes.length = (chainLeaves op expr).length ∧
        (nodes.map Prod.fst).Pairwise (· < ·) ∧ Lowered s root s₂ ∧
        ∃ t, Reads s₂.nodes op root t ∧ t.leaves = nodes.map Prod.fst := by
  obtain ⟨nodes, s₁, hnodes, hpre, hlen, hpair, hwithin⟩ := lowerLeaves_total Expr.span _ s h
  have hne : nodes ≠ [] := by
    rw [← List.length_pos_iff, hlen, List.length_pos_iff, chainLeaves_eq]
    exact leaves_ne_nil _
  obtain ⟨root, s₂, hroot, hpre', hin, hread⟩ :=
    balance_reads cover op nodes s₁ hne hpre.length_le hwithin
  refine ⟨nodes, s₁, root, s₂, hnodes, ?_, hpre', hlen, hpair, ⟨hpre.trans hpre', hin.1, hin.2⟩,
    hread⟩
  simp [lowerLogicalBinaryChain, hnodes, hroot]

theorem lowerExpr_total (expr : Expr α) (s : ExprLowering κ) :
    ∃ id s', lowerExpr cover lowerForm expr s = some (id, s') ∧ Lowered s id s' := by
  induction hn : sizeOf expr using Nat.strong_induction_on generalizing expr s with
  | _ n ih =>
    cases expr with
    | other form span =>
      exact ⟨_, _, by rw [lowerExpr], lowered_other lowerForm form s⟩
    | binary op lhs rhs span =>
      by_cases hop : logicalChainOp op
      · rw [lowerExpr_logical hop]
        obtain ⟨_, _, root, s', _, hroot, _, _, _, hlow, _⟩ :=
          chain_reads (.binary op lhs rhs span) op s fun leaf hleaf s =>
            ih _ (hn ▸ sizeOf_lt_of_mem_chainLeaves hleaf) leaf s rfl
        exact ⟨root, s', hroot, hlow⟩
      · obtain ⟨l, s₁, hl, hlowl⟩ := ih _ (by subst hn; simp; omega) lhs s rfl
        obtain ⟨r, s₂, hr, hlowr⟩ := ih _ (by subst hn; simp; omega) rhs s₁ rfl
        refine ⟨_, _, ?_, .of_grows (hlowl.grows.trans hlowr.grows)
          (lowered_allocExpr (.binary op l r) span s₂)⟩
        simp [lowerExpr, hop, hl, hr]

/-- The value that decides the operator without its right operand. -/
def stopsAt : HirBinaryOp → Bool
  | .orOr => true
  | _ => false

/-- A chain is lowered to a tree of its operator over its lowered leaves, in their order, and both
evaluate alike whatever the leaves do: with the same result, the same final state and the same
leaves run. A leaf is given by its source expression and its node. -/
theorem lowerLogicalBinaryChain_spec (cover : Span → Span → Span)
    (lowerForm : α → ExprLowering κ → LoweredForm κ) (expr : Expr α) (op : HirBinaryOp)
    (s : ExprLowering κ) :
    ∃ nodes s₁ root s₂,
      lowerLeaves (lowerExpr cover lowerForm) Expr.span (chain op expr).leaves s =
          some (nodes, s₁) ∧
        lowerLogicalBinaryChain cover lowerForm expr op s = some (root, s₂) ∧
        s₁.nodes <+: s₂.nodes ∧ (nodes.map Prod.fst).Nodup ∧
        ∃ source hir : Bracketing (Expr α × HirExprId),
          source.map Prod.fst = chain op expr ∧
          Reads s₂.nodes op root (hir.map Prod.snd) ∧
          source.leaves = (chain op expr).leaves.zip (nodes.map Prod.fst) ∧
          hir.leaves = source.leaves ∧
          ∀ (σ ε : Type) (runLeaf : Expr α × HirExprId → σ → Except ε Bool × σ) (state : σ),
            hir.run (stopsAt op) runLeaf state = source.run (stopsAt op) runLeaf state := by
  obtain ⟨nodes, s₁, root, s₂, hnodes, hroot, hpre, hlen, hpair, _, t, ht, hleaves⟩ :=
    chain_reads expr op s fun leaf _ s => lowerExpr_total leaf s
  rw [chainLeaves_eq] at hnodes hlen
  obtain ⟨source, hsource, hsl⟩ := Bracketing.exists_map (f := Prod.fst) (chain op expr)
    ((chain op expr).leaves.zip (nodes.map Prod.fst))
    (List.map_fst_zip (by rw [List.length_map, hlen]))
  obtain ⟨hir, hhir, hhl⟩ := Bracketing.exists_map (f := Prod.snd) t
    ((chain op expr).leaves.zip (nodes.map Prod.fst))
    (by rw [hleaves, List.map_snd_zip (by rw [List.length_map, hlen])])
  refine ⟨nodes, s₁, root, s₂, hnodes, hroot, hpre, hpair.imp fun hlt => hlt.ne, source, hir,
    hsource, hhir ▸ ht, hsl, hhl.trans hsl.symm, ?_⟩
  intro σ ε runLeaf state
  exact Bracketing.run_congr (hhl.trans hsl.symm) state

end ExprLowering
end EtasFrontend.Hir
