import EtasFrontend.Optimization.LoopFusionExact

/-! The fused program does what the program did, where the literals of a fused pair have the same
values. -/
namespace EtasFrontend.Optimization
open Hir (HirExprId HirStmtId HirPatId HirBlockId SymbolId HirLiteral HirTreeChild Halt)
open Lib

/-- The node is one of a fused loop. -/
def InFusedLoop (pass : LoopFusionPass) (program : HirProgram) (legality : AgentEffectLegalityFacts)
    (entries : List (HirBlockId × List Fusion))
    (pairs : HirBlockId × List Fusion → List (HirStmtId × HirStmtId)) (node : HirTreeChild) : Prop :=
  ∃ entry ∈ entries, ∃ s ∈ members (pairs entry), ∃ loop shape elems,
    pass.matchLoop program legality s = .ok (some loop) ∧
      Recognised pass program legality loop shape elems ∧
        node ∈ .stmt loop.statement :: loop.chain shape

/-- The literals at one place of the two sequences have one value. -/
def Fusion.SameValues {V : Type} {n : Type → Type} (S : Semantics V n) (pass : LoopFusionPass)
    (program : HirProgram) (legality : AgentEffectLegalityFacts) (fusion : Fusion) : Prop :=
  ∀ stmt first elems elems',
    pass.fusePair program legality stmt fusion.second.statement = .ok (some fusion) →
    pass.matchLoop program legality stmt = .ok (some first) →
    program.sequenceElements first.iterable = some elems →
    program.sequenceElements fusion.second.iterable = some elems' →
      elems.map (S.literalValue program) = elems'.map (S.literalValue program)

variable {V : Type}

/-- Literals that have been checked at one type have one value. -/
theorem literalValues_eq {n : Type → Type} {S : Semantics V n} {program : HirProgram}
    {left right : HirExprId} {elems elems' : List HirExprId}
    (h : program.equivalentLiteralSequence left right = true)
    (hleft : program.sequenceElements left = some elems)
    (hright : program.sequenceElements right = some elems')
    (htypes : ∀ (i : ℕ) (e e' : HirExprId), elems[i]? = some e → elems'[i]? = some e' →
      S.typeOf e = S.typeOf e') :
    elems.map (S.literalValue program) = elems'.map (S.literalValue program) := by
  simp only [HirProgram.equivalentLiteralSequence, Bool.and_eq_true, beq_iff_eq] at h
  obtain ⟨⟨-, hsome⟩, heq⟩ := h
  obtain ⟨literals, hliterals⟩ := Option.isSome_iff_exists.mp hsome
  have hliterals' := heq.symm.trans hliterals
  rw [HirProgram.literalSequence, hleft, Option.bind_some] at hliterals
  rw [HirProgram.literalSequence, hright, Option.bind_some] at hliterals'
  have hpairs := program.mapM_literal hliterals
  have hpairs' := program.mapM_literal hliterals'
  clear hleft hright hliterals hliterals' heq hsome
  induction hpairs generalizing elems' with
  | nil =>
    cases hpairs'
    rfl
  | @cons e l elems literals hl _ ih =>
    cases hpairs' with
    | @cons e' _ elems' _ hl' hrest' =>
      rw [List.map_cons, List.map_cons, List.cons.injEq]
      refine ⟨?_, ih (fun i => htypes (i + 1)) hrest'⟩
      rw [Semantics.literalValue, Semantics.literalValue, hl, hl', htypes 0 e e' rfl rfl]

variable {pass : LoopFusionPass} {program program' : HirProgram}
  {legality : AgentEffectLegalityFacts} {entries : List (HirBlockId × List Fusion)}
  {pairs : HirBlockId × List Fusion → List (HirStmtId × HirStmtId)} {used : HirTreeChild → Prop}
  {entry : HirBlockId × List Fusion} {loop : FusedLoop} {shape : BodyShape}
  {elems : List HirExprId}

/-- Only a fused block reaches into a fused loop from outside. -/
theorem FoundFusions.enters (h : FoundFusions pass program legality entries pairs)
    (howned : Owned program.parts used) (hused : ∀ entry ∈ entries, used (.block entry.1))
    {node c : HirTreeChild} (hnode : used node)
    (hout : ¬ InFusedLoop pass program legality entries pairs node) (hc : c ∈ program.parts node)
    (hin : InFusedLoop pass program legality entries pairs c) :
    ∃ entry ∈ entries, node = .block entry.1 ∧ ∃ s ∈ members (pairs entry), c = .stmt s := by
  obtain ⟨entry, hentry, s, hs, loop, shape, elems, hloop, hfinds, hc'⟩ := hin
  have hpart := h.part hentry hs
  have hlive := howned.live_part _ _ (hused entry hentry) hpart
  obtain ⟨rfl, -⟩ := matchLoop_finds hloop
  by_cases hblock : node = .block entry.1
  · subst hblock
    refine ⟨entry, hentry, rfl, loop.statement, hs, ?_⟩
    rcases List.mem_cons.mp hc' with rfl | hc'
    · rfl
    · exact absurd ⟨entry, hentry, _, hs, loop, shape, elems, hloop, hfinds,
        howned.owner_mem_chain hfinds.isChain hlive hnode hc' hc⟩ hout
  · refine absurd hc' (howned.not_mem_chain hfinds.isChain hlive (hused entry hentry) hpart hnode
      hblock (fun hmem => hout ?_) hc)
    exact ⟨entry, hentry, _, hs, loop, shape, elems, hloop, hfinds, hmem⟩

theorem FusedProgram.redirectsOnly (hfused : FusedProgram program program' entries)
    (h : FoundFusions pass program legality entries pairs) (hloops : program.LoopsBindPatterns) :
    program.RedirectsOnly program' := by
  intro e
  by_cases he : ∀ entry ∈ entries, ∀ f ∈ entry.2, e ≠ f.second.loopReference
  · exact .inl (hfused.exprs_same e he)
  · simp only [not_forall, not_not] at he
    obtain ⟨entry, hentry, f, hf, rfl⟩ := he
    obtain ⟨p, -, -, first, hpair⟩ := h.exists_pair hentry hf
    obtain ⟨-, shape, elems, hfinds⟩ := matchLoop_finds hpair.matchSecond
    obtain ⟨name, kind, hsymbol⟩ := hloops _ _ _ _ _ _ hfinds.covered.stmt hfinds.covered.pat
    obtain ⟨path, hpath, -⟩ := program'.resolvedPath_eq_some.mp
      (hfused.exprs_reference entry hentry f hf)
    exact .inr ⟨⟨_, name, kind, hfinds.body.reference, hsymbol⟩, path, hpath⟩

section Entry
variable (hfused : FusedProgram program program' entries)
  (h : FoundFusions pass program legality entries pairs) (howned : Owned program.parts used)
  (hused : ∀ entry ∈ entries, used (.block entry.1)) (hentry : entry ∈ entries)
include hfused h howned hused hentry

/-- The redirected references are those of the second loops. -/
theorem FusedProgram.first_reference {p : HirStmtId × HirStmtId} (hp : p ∈ pairs entry)
    {first : FusedLoop} (hfirst : pass.matchLoop program legality p.1 = .ok (some first))
    (hfinds : Recognised pass program legality first shape elems) :
    program'.resolvedPath first.loopReference = some first.loopSymbol := by
  rw [HirProgram.resolvedPath, hfused.exprs_same]
  · exact hfinds.body.reference
  · intro entry' hentry' f' hf' heq
    obtain ⟨p', hp', -, first', hpair'⟩ := h.exists_pair hentry' hf'
    exact (h.pair_eq howned hused hentry hentry' hp hp').2.2
      (h.reference_eq howned hused hentry hentry' (fst_mem_members hp) (snd_mem_members hp') hfirst
        hpair'.matchSecond heq)

/-- The block of a membership test is no block that is edited. -/
theorem FusedProgram.thenBlock {s : HirStmtId} (hs : s ∈ members (pairs entry))
    (hloop : pass.matchLoop program legality s = .ok (some loop))
    (hfinds : Recognised pass program legality loop shape elems) :
    ∀ ifExpr cond probe probeFirst thenBlock assignment target value,
      shape = .membership ifExpr cond probe probeFirst thenBlock assignment target value →
        program'.blocks thenBlock = program.blocks thenBlock := by
  rintro ifExpr cond probe probeFirst thenBlock assignment target value rfl
  cases hbody : hfinds.body with
  | membership hstmt hif hcond hprobe hthen =>
  obtain ⟨scope, hthen⟩ := hthen
  obtain ⟨rfl, -⟩ := matchLoop_finds hloop
  have hlive := howned.live_of_chain hfinds.isChain
    (howned.live_part _ _ (hused entry hentry) (h.part hentry hs))
  have hif' : used (.expr ifExpr) := hlive _ (by simp [FusedLoop.chain, BodyShape.spine])
  have hpart : HirTreeChild.block thenBlock ∈ program.parts (.expr ifExpr) := by
    simp [HirProgram.parts, hif, HirExpr.children]
  refine hfused.blocks_same _ fun entry' hentry' => ⟨fun heq => ?_, fun f' hf' heq => ?_⟩
  · have hlength := h.two_le_length hentry'
    rw [← heq, hthen] at hlength
    simp at hlength
  · obtain ⟨p', hp', -, first', hpair'⟩ := h.exists_pair hentry' hf'
    obtain ⟨heq', shape', elems', hfinds'⟩ := matchLoop_finds hpair'.matchFirst
    have hfirst' : used (.stmt first'.statement) := heq' ▸
      howned.live_part _ _ (hused entry' hentry') (h.part hentry' (fst_mem_members hp'))
    have hpart' : HirTreeChild.block first'.body ∈ program.parts (.stmt first'.statement) := by
      simp [HirProgram.parts, hfinds'.covered.stmt, Hir.HirStmt.children]
    have howner := howned.owner _ _ _ hif' hfirst' hpart
      (by rw [heq, hpair'.firstBody]; exact hpart')
    cases howner

end Entry

/-- The nodes of the first loop that are not in its body. -/
theorem exists_loop_means {n : Type → Type} [Monad n] {S : Semantics V n}
    {stmt : HirStmtId} {pat : HirPatId} {x : SymbolId} {iter : HirExprId}
    {elems limits : List HirExprId} {body : HirBlockId} {bodyStmt : HirStmtId}
    (hloop : LiteralLoop program stmt pat x iter elems limits body bodyStmt)
    (hexprs : program.RedirectsOnly program') (hstmts : program'.stmts = program.stmts)
    (hpats : program'.pats = program.pats) (hbody : ∃ d, S.NodeMeans program' (.block body) d) :
    ∃ d, S.NodeMeans program' (.stmt stmt) d := by
  have leaf {node : HirTreeChild} (h : program'.parts node = []) :
      ∃ d, S.NodeMeans program' node d := exists_of_parts [] h trivial
  have hpatM : ∃ d, S.NodeMeans program' (.pattern pat) d :=
    leaf (by simp [HirProgram.parts, hpats, hloop.pat, Hir.HirPat.children])
  have helems : ∀ e ∈ elems, ∃ d, S.NodeMeans program' (.expr e) d := fun e he =>
    leaf (parts_of_literal (hexprs.literal_isSome (hloop.literals e he)))
  have hiterM : ∃ d, S.NodeMeans program' (.expr iter) d := by
    refine exists_of_parts (elems.map .expr) ?_ ?_
    · have hiter := hexprs.sequenceElements hloop.iter
      unfold HirProgram.sequenceElements at hiter
      split at hiter <;> simp_all [HirProgram.parts, HirExpr.children, HirExpr.bodies]
    · simpa [List.forall_iff_forall_mem] using helems
  have hlimitM : ∀ e ∈ limits, ∃ d, S.NodeMeans program' (.expr e) d := by
    obtain ⟨path, text, count, hcall, -⟩ := hloop.limit
    unfold HirProgram.limitCall at hcall
    split at hcall
    case h_2 => cases hcall
    next limit =>
    split at hcall
    case h_2 => cases hcall
    next callee genericArgs arg hlimit =>
    split at hcall
    case h_2 => cases hcall
    next path' text' hcallee harg =>
    have hcalleeM : ∃ d, S.NodeMeans program' (.expr callee) d := by
      have hpath : ∃ path, program'.exprs callee = .path path := by
        rcases hexprs callee with hsame | ⟨-, hpath⟩
        · exact ⟨path', hsame.trans hcallee⟩
        · exact hpath
      obtain ⟨path, hpath⟩ := hpath
      exact leaf (by simp [HirProgram.parts, hpath, HirExpr.children, HirExpr.bodies])
    have hargM : ∃ d, S.NodeMeans program' (.expr arg) d :=
      leaf (parts_of_literal (hexprs.literal_isSome (by simp [HirProgram.literal, harg])))
    have hlimit' := (hexprs.noPath (by simp [hlimit])).trans hlimit
    rw [List.forall_mem_singleton]
    exact exists_of_parts [.expr callee, .expr arg]
      (by simp [HirProgram.parts, hlimit', HirExpr.children, HirExpr.bodies, Hir.HirArg.expr])
      ⟨hcalleeM, hargM⟩
  refine exists_of_parts (.pattern pat :: .expr iter :: limits.map .expr ++ [.block body])
    (by rw [HirProgram.parts, hstmts, hloop.stmt, Hir.HirStmt.children]) ?_
  rw [List.forall_iff_forall_mem, List.cons_append, List.forall_mem_cons, List.cons_append,
    List.forall_mem_cons, List.forall_mem_append, List.forall_mem_map, List.forall_mem_singleton]
  exact ⟨hpatM, hiterM, hlimitM, hbody⟩

section
variable {V : Type} {n : Type → Type} [Monad n] [LawfulMonad n] {S : Semantics V n}

theorem Recognised.exists_steps (h : Recognised pass program legality loop shape elems)
    (hS : S.Lawful program) (hloops : program.LoopsBindPatterns)
    (htypes : S.ComparesAtOneType program) (hsound : S.Sound program legality) :
    ∃ f, shape.Steps S program (elems.map (S.literalValue program)) f := by
  refine h.body.exists_steps hS hsound h.movable (isVar_ne hloops h.covered h.isVar)
    (hS.item_var _ h.isVar) (h.covered.isCell hS hloops) ?_
  rintro ifExpr cond probe probeFirst thenBlock assignment target value rfl v hv
  obtain ⟨e, he, rfl⟩ := List.mem_map.mp hv
  cases h.body with
  | membership hstmt hif hcond hprobe hthen hassign hvalue htarget href =>
    have htype := htypes _ _ _ _ _ _ _ _ _ _ _ _ h.covered hcond hprobe href e he
    obtain ⟨same, heq, -⟩ := comparison_literal hS.toLaws cond probeFirst hprobe
      (h.covered.literals e he) htype
    exact ⟨same, heq⟩

/-- What a recognised loop leaves in the variables. -/
theorem Recognised.eval (h : Recognised pass program legality loop shape elems)
    (hS : S.Lawful program) (hloops : program.LoopsBindPatterns) {f : V → V → V}
    (hf : shape.Steps S program (elems.map (S.literalValue program)) f) {d : Meaning V n}
    (hd : S.NodeMeans program (.stmt loop.statement) d) :
    d.eval = S.changes (scan [(loop.targetSymbol, f)] (elems.map (S.literalValue program))) := by
  have hne := isVar_ne hloops h.covered h.isVar
  have hacc := fun v hv => h.body.accumulates hS.toLaws (hS.item_var _ h.isVar)
    (h.covered.isCell hS hloops) hS.item_item hf (v := v) hv
  rw [h.covered.eval hS hacc hne hd]
  congr 1
  funext σ
  exact (scan_single _ f _ σ).symm

theorem changes_bind (f g : (SymbolId → V) → SymbolId → V) :
    (S.changes f >>= fun _ => S.changes g) = S.changes fun σ => g (f σ) := by
  funext σ
  exact pure_bind (S.unit, f σ) fun p => S.changes g p.2

section
variable (hfused : FusedProgram program program' entries)
  (h : FoundFusions pass program legality entries pairs) (howned : Owned program.parts used)
  (hused : ∀ entry ∈ entries, used (.block entry.1)) (hS : S.Lawful program)
  (hloops : program.LoopsBindPatterns) (htypes : S.ComparesAtOneType program)
  (hsound : S.Sound program legality)
  (hsame : ∀ entry ∈ entries, ∀ f ∈ entry.2, f.SameValues S pass program legality)
include hfused h howned hused hS hloops htypes hsound hsame

/-- The loop that is left of a pair does what the two loops did. -/
theorem FusedProgram.pair_means (hentry : entry ∈ entries) {p : HirStmtId × HirStmtId}
    (hp : p ∈ pairs entry) :
    (∃ d, S.NodeMeans program' (.stmt p.1) d) ∧
      ∀ d₁ d₂ d, S.NodeMeans program (.stmt p.1) d₁ → S.NodeMeans program (.stmt p.2) d₂ →
        S.NodeMeans program' (.stmt p.1) d → (do let _ ← d₁.eval; d₂.eval) = d.eval := by
  obtain ⟨f, hf, hfuse⟩ := forall₂_mem_left (h.fuses entry hentry) hp
  obtain ⟨first, hpair⟩ := fusePair_finds hfuse
  obtain ⟨hstmt₁, shape₁, elems₁, hfirst⟩ := matchLoop_finds hpair.matchFirst
  obtain ⟨hstmt₂, shape₂, elems₂, hsecond⟩ := matchLoop_finds hpair.matchSecond
  have hexprs := hfused.redirectsOnly h hloops
  have hvalues := hsame entry hentry f hf p.1 first elems₁ elems₂ (hstmt₂ ▸ hfuse) hpair.matchFirst
    hfirst.covered.iter hsecond.covered.iter
  obtain ⟨f₁, hf₁⟩ := hfirst.exists_steps hS hloops htypes hsound
  obtain ⟨f₂, hf₂⟩ := hsecond.exists_steps hS hloops htypes hsound
  -- both bodies, over the variable of the first loop
  have hx := hfirst.covered.isCell hS hloops
  have hbody₁ := hfirst.body.redirect hfirst.isVar hfused.stmts hfused.symbols hexprs
    (hfused.thenBlock h howned hused hentry (fst_mem_members hp) hpair.matchFirst hfirst)
    (hfused.first_reference h howned hused hentry hp hpair.matchFirst hfirst)
  have hbody₂ := hsecond.body.redirect hsecond.isVar hfused.stmts hfused.symbols hexprs
    (hfused.thenBlock h howned hused hentry (snd_mem_members hp) hpair.matchSecond hsecond)
    (hpair.firstLoopSymbol ▸ hfused.exprs_reference entry hentry f hf)
  have hitem : ∀ id symbol name kind item,
      program'.symbols symbol = some ⟨name, kind, .item item⟩ → (S.item id symbol).isSome := by
    rw [hfused.symbols]
    exact hS.item_item
  obtain ⟨scope, hblock⟩ := hfirst.covered.body
  have hblock' : program'.blocks first.body =
      ⟨[first.bodyStatement, f.second.bodyStatement], none, scope⟩ := by
    have hbody := hfused.blocks_body entry hentry f hf
    rw [hpair.firstBody, hblock] at hbody
    exact hbody
  have hblockM : ∃ d, S.NodeMeans program' (.block first.body) d :=
    exists_of_parts [.stmt first.bodyStatement, .stmt f.second.bodyStatement]
      (by simp [HirProgram.parts, hblock']) ⟨hbody₁.exists_nodeMeans, hbody₂.exists_nodeMeans⟩
  rw [← hstmt₁, ← hstmt₂]
  refine ⟨exists_loop_means hfirst.covered hexprs hfused.stmts hfused.pats hblockM,
    fun d₁ d₂ d hd₁ hd₂ hd => ?_⟩
  have hvalues' : elems₁.map (S.literalValue program') = elems₁.map (S.literalValue program) :=
    List.map_congr_left fun e he => hexprs.literalValue S (hfirst.covered.literals e he)
  have hne₁ := isVar_ne hloops hfirst.covered hfirst.isVar
  have hne₂ := isVar_ne hloops hfirst.covered hsecond.isVar
  have haccs : ∀ v ∈ elems₁.map (S.literalValue program'),
      List.Forall₂ (S.Accumulates program' first.loopSymbol v)
        [first.bodyStatement, f.second.bodyStatement]
        [[(first.targetSymbol, f₁)], [(f.second.targetSymbol, f₂)]] := by
    intro v hv
    rw [hvalues'] at hv
    exact .cons (hbody₁.accumulates hS.toLaws (hS.item_var _ hfirst.isVar) hx hitem
      (hexprs.steps hfirst.body hf₁) hv) (.cons (hbody₂.accumulates hS.toLaws
        (hS.item_var _ hsecond.isVar) hx hitem (hexprs.steps hsecond.body hf₂) (hvalues ▸ hv)) .nil)
  have heval := scanLoop_eval hS.toLaws (hfused.stmts ▸ hfirst.covered.stmt)
    (hfused.pats ▸ hfirst.covered.pat) (hexprs.sequenceElements hfirst.covered.iter)
    (fun e he => hexprs.literal_isSome (hfirst.covered.literals e he)) (hfirst.covered.within hS)
    hblock' haccs (by simpa using ⟨hne₁, hne₂⟩) hd
  rw [hfirst.eval hS hloops hf₁ hd₁, hsecond.eval hS hloops hf₂ hd₂, changes_bind, heval, hvalues',
    ← hvalues]
  congr 1
  funext σ
  refine (scan_append ?_ _ σ).symm
  simpa using hpair.targets

/-- A fused block does what the block did, when the nodes outside of its pairs do. -/
theorem FusedProgram.block_means
    (hentry : entry ∈ entries) {m : HirTreeChild → Meaning V n}
    (hm : ∀ c ∈ program.parts (.block entry.1), S.NodeMeans program c (m c))
    (ih : ∀ c ∈ program.parts (.block entry.1), (∀ s ∈ members (pairs entry), c ≠ .stmt s) →
      S.NodeMeans program' c (m c)) :
    S.NodeMeans program' (.block entry.1) (S.nodeMeaning program (.block entry.1) m) := by
  have hblock : program'.blocks entry.1 = { program.blocks entry.1 with
      stmts := (program.blocks entry.1).stmts.filter fun s => s ∉ (pairs entry).map Prod.snd } := by
    rw [hfused.blocks_parent entry hentry, h.seconds_eq hentry]
  have hparts' : program'.parts (.block entry.1) =
      ((program.blocks entry.1).stmts.filter fun s => s ∉ (pairs entry).map Prod.snd).map .stmt ++
        (program.blocks entry.1).finalExpr.toList.map .expr := by
    rw [HirProgram.parts, hblock]
  have hpairs (p : HirStmtId × HirStmtId) (hp : p ∈ pairs entry) :=
    hfused.pair_means h howned hused hS hloops htypes hsound hsame hentry hp
  have hstmt {s : HirStmtId} (hs : s ∈ (program.blocks entry.1).stmts) :
      .stmt s ∈ program.parts (.block entry.1) := by
    simp [HirProgram.parts, hs]
  have hstmt' {s : HirStmtId} (hs : s ∈ (program.blocks entry.1).stmts)
      (hkept : s ∉ (pairs entry).map Prod.snd) : .stmt s ∈ program'.parts (.block entry.1) := by
    rw [hparts']
    exact List.mem_append_left _ (List.mem_map_of_mem (List.mem_filter.mpr ⟨hs, by simpa using hkept⟩))
  have hfinal {e : HirExprId} (he : (program.blocks entry.1).finalExpr = some e) :
      S.NodeMeans program' (.expr e) (m (.expr e)) :=
    ih _ (by simp [HirProgram.parts, he]) (fun s _ => by simp)
  -- the meanings in the fused program
  obtain ⟨m', hm'⟩ : ∃ m' : HirTreeChild → Meaning V n,
      ∀ c ∈ program'.parts (.block entry.1), S.NodeMeans program' c (m' c) := by
    have : Nonempty (Meaning V n) := ⟨Semantics.evaluated (pure S.unit)⟩
    refine Means.choose_parts fun c hc => ?_
    rw [hparts', List.mem_append] at hc
    rcases hc with hc | hc
    · obtain ⟨s, hs, rfl⟩ := List.mem_map.mp hc
      obtain ⟨hs, hkept⟩ := List.mem_filter.mp hs
      by_cases hmember : s ∈ members (pairs entry)
      · obtain ⟨p, hp, hsp⟩ := List.mem_flatMap.mp hmember
        simp only [List.mem_cons, List.not_mem_nil, or_false] at hsp
        rcases hsp with rfl | rfl
        · exact (hpairs p hp).1
        · simp only [decide_eq_true_eq] at hkept
          exact absurd (List.mem_map_of_mem hp) hkept
      · exact ⟨_, ih _ (hstmt hs) fun s' hs' heq =>
          hmember (HirTreeChild.stmt.inj heq ▸ hs')⟩
    · obtain ⟨e, he, rfl⟩ := List.mem_map.mp hc
      exact ⟨_, hfinal (Option.mem_toList.mp he)⟩
  have hstmts := FoundFusions.stmts_nodup howned (hused entry hentry)
  have hrun := (h.adjacent entry hentry).forM_contract hstmts (m := StateT (SymbolId → V) n)
    (fun s => do let _ ← (m (.stmt s)).eval; pure ())
    (fun s => do let _ ← (m' (.stmt s)).eval; pure ())
    (fun s hs hmember => by
      have hkept : s ∉ (pairs entry).map Prod.snd := fun hmem =>
        hmember ((map_snd_sublist _).subset hmem)
      have hkind := ih _ (hstmt hs) fun s' hs' heq => hmember (HirTreeChild.stmt.inj heq ▸ hs')
      rw [(hm' _ (hstmt' hs hkept)).unique (nodeMeaning_looksAtParts _) hkind])
    (fun p hp => by
      have hnodup := (h.adjacent entry hentry).nodup hstmts
      have hkept : p.1 ∉ (pairs entry).map Prod.snd := fun hmem => by
        obtain ⟨q, hq, heq⟩ := List.mem_map.mp hmem
        exact (members_nodup hnodup hp hq).2.2 heq.symm
      have hmem := (h.adjacent entry hentry).sublist.subset
      have heval := (hpairs p hp).2 _ _ _ (hm _ (hstmt (hmem (fst_mem_members hp))))
        (hm _ (hstmt (hmem (snd_mem_members hp))))
        (hm' _ (hstmt' (hmem (fst_mem_members hp)) hkept))
      rw [← heval]
      simp only [bind_assoc, pure_bind])
  have hsame : S.nodeMeaning program (.block entry.1) m =
      S.nodeMeaning program' (.block entry.1) m' := by
    simp only [Semantics.nodeMeaning, Semantics.blockMeaning, hblock, hrun]
    cases he : (program.blocks entry.1).finalExpr with
    | none => rfl
    | some e =>
      have hmem : HirTreeChild.expr e ∈ program'.parts (.block entry.1) := by simp [hparts', he]
      simp only [(hm' _ hmem).unique (nodeMeaning_looksAtParts _) (hfinal he)]
  rw [hsame]
  exact .node _ m' hm'

/-- A node outside of the fused loops means what it meant. -/
theorem FusedProgram.means {node : HirTreeChild} (hnode : used node)
    (hout : ¬ InFusedLoop pass program legality entries pairs node) {d : Meaning V n}
    (hd : S.NodeMeans program node d) : S.NodeMeans program' node d := by
  refine Means.transfer (fun node => used node ∧ ¬ InFusedLoop pass program legality entries pairs node)
    (fun node m ⟨hnode, hout⟩ hm ih => ?_) ⟨hnode, hout⟩ hd
  replace ih : ∀ c ∈ program.parts node, ¬ InFusedLoop pass program legality entries pairs c →
      S.NodeMeans program' c (m c) := fun c hc hout' =>
    ih c hc ⟨howned.live_part _ _ hnode hc, hout'⟩
  by_cases hentry : ∃ entry ∈ entries, node = .block entry.1
  · obtain ⟨entry, hentry, rfl⟩ := hentry
    refine hfused.block_means h howned hused hS hloops htypes hsound hsame hentry hm
      fun c hc hc' => ih c hc fun hin => ?_
    obtain ⟨entry', hentry', heq, s, hs, rfl⟩ := h.enters howned hused hnode hout hc hin
    obtain rfl := List.inj_on_of_nodup_map h.keys hentry hentry' (HirTreeChild.block.inj heq)
    exact hc' s hs rfl
  · have hall : ∀ c ∈ program.parts node, S.NodeMeans program' c (m c) := fun c hc =>
      ih c hc fun hin => by
        obtain ⟨entry, hentry', heq, -⟩ := h.enters howned hused hnode hout hc hin
        exact hentry ⟨entry, hentry', heq⟩
    cases node with
    | stmt s =>
      exact .same (by simp only [HirProgram.parts, hfused.stmts])
        (by simp only [Semantics.nodeMeaning, hfused.stmts]) hall
    | pattern p =>
      exact .same (by simp only [HirProgram.parts, hfused.pats])
        (by simp only [Semantics.nodeMeaning, hfused.pats]) hall
    | handlerArm a =>
      exact .same (by simp only [HirProgram.parts, hfused.handlerArms])
        (by simp only [Semantics.nodeMeaning, HirProgram.parts, hfused.handlerArms]) hall
    | expr e =>
      have hsame : program'.exprs e = program.exprs e := by
        refine hfused.exprs_same e fun entry' hentry' f hf heq => hout ?_
        obtain ⟨p, hp, -, first, hpair⟩ := h.exists_pair hentry' hf
        obtain ⟨-, shape, elems, hfinds⟩ := matchLoop_finds hpair.matchSecond
        exact ⟨entry', hentry', p.2, snd_mem_members hp, f.second, shape, elems, hpair.matchSecond,
          hfinds, by simp [FusedLoop.chain, heq]⟩
      exact .same (by simp only [HirProgram.parts, hsame])
        (by simp only [Semantics.nodeMeaning, hsame]) hall
    | block b =>
      have hsame : program'.blocks b = program.blocks b := by
        refine hfused.blocks_same b fun entry' hentry' =>
          ⟨fun heq => hentry ⟨entry', hentry', by rw [heq]⟩, fun f hf heq => hout ?_⟩
        obtain ⟨p, hp, -, first, hpair⟩ := h.exists_pair hentry' hf
        obtain ⟨-, shape, elems, hfinds⟩ := matchLoop_finds hpair.matchFirst
        exact ⟨entry', hentry', p.1, fst_mem_members hp, first, shape, elems, hpair.matchFirst,
          hfinds, by simp [FusedLoop.chain, heq, hpair.firstBody]⟩
      exact .same (by simp only [HirProgram.parts, hsame])
        (by simp only [Semantics.nodeMeaning, hsame]) hall

end

/-- The loops that the passes fuse are neighbours in their blocks, each with one partner; the other
statements stay in their order; and every block outside of the fused loops does what it did, when
the literals of each fused pair have the same values. The entries are those that were
found, in any order. -/
theorem applyFusions_preserves (hS : S.Lawful program) (hloops : program.LoopsBindPatterns)
    (htypes : S.ComparesAtOneType program) (hsound : S.Sound program legality)
    (howned : Owned program.parts used) (hused : ∀ entry ∈ entries, used (.block entry.1))
    {blocks : List HirBlockId} {found : List (HirBlockId × List Fusion)}
    (hfound : pass.findFusions program legality blocks = .ok found)
    (hentries : ∀ entry, entry ∈ entries ↔ entry ∈ found) (hkeys : (entries.map Prod.fst).Nodup)
    (hsame : ∀ entry ∈ entries, ∀ f ∈ entry.2, f.SameValues S pass program legality) {k : ℕ}
    (happly : applyFusions k program entries = .ok program') :
    (∃ pairs : HirBlockId × List Fusion → List (HirStmtId × HirStmtId),
      (∀ entry ∈ entries, AdjacentPairs (program.blocks entry.1).stmts (pairs entry) ∧
        List.Forall₂ (fun p f => pass.fusePair program legality p.1 p.2 = .ok (some f))
          (pairs entry) entry.2 ∧
        (program'.blocks entry.1).stmts =
          (program.blocks entry.1).stmts.filter fun s => s ∉ (pairs entry).map Prod.snd) ∧
      (entries.flatMap fun entry => members (pairs entry)).Nodup) ∧
    ∀ b, used (.block b) →
      (∀ entry ∈ entries, ∀ f ∈ entry.2, b ≠ f.firstBody ∧ b ≠ f.second.body) →
        ∀ d, S.NodeMeans program (.block b) d → S.NodeMeans program' (.block b) d := by
  obtain ⟨pairs, h⟩ := findFusions_found hfound hentries hkeys
  have hfused := applyFusions_fused (h.apart howned hused) happly
  refine ⟨⟨pairs, fun entry hentry => ⟨h.adjacent entry hentry, h.fuses entry hentry, ?_⟩, ?_⟩,
    fun b hb hbody d hd => ?_⟩
  · rw [hfused.blocks_parent entry hentry, h.seconds_eq hentry]
  · rw [List.nodup_flatMap]
    refine ⟨fun entry hentry => (h.adjacent entry hentry).nodup
      (FoundFusions.stmts_nodup howned (hused entry hentry)), ?_⟩
    exact (List.Nodup.of_map _ h.keys).pairwise_of_forall_ne
      fun entry hentry entry' hentry' hne s hs hs' =>
        hne (h.entry_eq howned hused hentry hentry' hs hs')
  · refine hfused.means h howned hused hS hloops htypes hsound hsame hb ?_ hd
    rintro ⟨entry, hentry, s, hs, loop, shape, elems, hloop, -, hmem⟩
    obtain rfl : b = loop.body := by simpa [FusedLoop.chain] using hmem
    obtain ⟨p, hp, hsp⟩ := List.mem_flatMap.mp hs
    obtain ⟨f, hf, hfuse⟩ := forall₂_mem_left (h.fuses entry hentry) hp
    obtain ⟨first, hpair⟩ := fusePair_finds hfuse
    have hbodies := hbody entry hentry f hf
    simp only [List.mem_cons, List.not_mem_nil, or_false] at hsp
    rcases hsp with rfl | rfl
    · rw [hpair.matchFirst] at hloop
      cases hloop
      exact hbodies.1 hpair.firstBody.symm
    · rw [hpair.matchSecond] at hloop
      cases hloop
      exact hbodies.2 rfl

end

/-- `for x in [l] limit Iterations(1) { a = a + x; }`, and the same loop into `b`. -/
def projectionProgram (init l : HirLiteral) : HirProgram :=
  { HirProgram.empty with
    exprs := fun
      | 0 => .array [1]
      | 1 => .literal l
      | 2 => .call 3 [] [.positional 4]
      | 3 => .path ⟨["Iterations"], .unresolved, ⟨0, 0, 0⟩⟩
      | 4 => .literal (.int "1")
      | 5 => .path ⟨["a"], .resolved 0, ⟨0, 0, 0⟩⟩
      | 6 => .binary .add 7 8
      | 7 => .path ⟨["a"], .resolved 0, ⟨0, 0, 0⟩⟩
      | 8 => .path ⟨["x"], .resolved 1, ⟨0, 0, 0⟩⟩
      | 10 => .array [11]
      | 11 => .literal l
      | 12 => .call 13 [] [.positional 14]
      | 13 => .path ⟨["Iterations"], .unresolved, ⟨0, 0, 0⟩⟩
      | 14 => .literal (.int "1")
      | 15 => .path ⟨["b"], .resolved 2, ⟨0, 0, 0⟩⟩
      | 16 => .binary .add 17 18
      | 17 => .path ⟨["b"], .resolved 2, ⟨0, 0, 0⟩⟩
      | 18 => .path ⟨["y"], .resolved 3, ⟨0, 0, 0⟩⟩
      | 20 => .literal init
      | 21 => .literal init
      | _ => .error
    stmts := fun
      | 0 => .var 0 20
      | 1 => .var 2 21
      | 2 => .for 1 0 [2] 1
      | 3 => .for 3 10 [12] 2
      | 4 => .assign 5 6
      | 5 => .assign 15 16
      | _ => .error
    pats := fun
      | 0 => .binding 0
      | 1 => .binding 1
      | 2 => .binding 2
      | 3 => .binding 3
      | _ => .error
    blocks := fun
      | 0 => ⟨[0, 1, 2, 3], none, 0⟩
      | 1 => ⟨[4], none, 0⟩
      | 2 => ⟨[5], none, 0⟩
      | _ => ⟨[], none, 0⟩
    symbols := fun
      | 0 => some ⟨"a", .local, .local 0⟩
      | 1 => some ⟨"x", .local, .patternBinding⟩
      | 2 => some ⟨"b", .local, .local 1⟩
      | 3 => some ⟨"y", .local, .patternBinding⟩
      | _ => none }

/-- The sequences and the sums are movable. -/
def sumsMovable : AgentEffectLegalityFacts where
  expressions e := if e ∈ [0, 6, 10, 16] then some ⟨0, ∅, ∅, true, true, true⟩ else none

/-- The nodes of the program. -/
def projectionNodes : List HirTreeChild :=
  [.block 0, .block 1, .block 2] ++ (List.range 6).map .stmt ++ (List.range 4).map .pattern ++
    ([0, 1, 2, 3, 4, 5, 6, 7, 8, 10, 11, 12, 13, 14, 15, 16, 17, 18, 20, 21].map .expr)

private theorem projectionProgram_loops (init l : HirLiteral) :
    (projectionProgram init l).LoopsBindPatterns := by
  intro stmt pat iter limits body x hstmt hpat
  have hloop : stmt = 2 ∨ stmt = 3 := by
    match stmt, hstmt with
    | 0, h => cases h
    | 1, h => cases h
    | 2, _ => exact .inl rfl
    | 3, _ => exact .inr rfl
    | 4, h => cases h
    | 5, h => cases h
    | _ + 6, h => cases h
  rcases hloop with rfl | rfl <;> cases hstmt <;> cases hpat <;> exact ⟨_, _, rfl⟩

private theorem projectionProgram_owned (init l : HirLiteral) :
    Owned (projectionProgram init l).parts (· ∈ projectionNodes) := by
  have hmap : projectionNodes.map (projectionProgram init l).parts =
      projectionNodes.map (projectionProgram (.bool true) (.bool true)).parts := rfl
  have hparts := List.map_inj_left.mp hmap
  have hflat : projectionNodes.flatMap (projectionProgram init l).parts =
      projectionNodes.flatMap (projectionProgram (.bool true) (.bool true)).parts := by
    rw [List.flatMap_def, List.flatMap_def, hmap]
  refine .of_list (fun p hp => ?_) ?_
  · rw [hparts p hp]
    revert p
    decide
  · rw [hflat]
    decide

private theorem projectionProgram_sound {S : Semantics V Id} (init l : HirLiteral)
    (hS : S.Lawful (projectionProgram init l)) : S.Sound (projectionProgram init l) sumsMovable := by
  intro e d he hd
  have hsequence {iter elem : HirExprId}
      (hiter : (projectionProgram init l).sequenceElements iter = some [elem])
      (helem : (projectionProgram init l).literal elem = some l)
      (hd : S.NodeMeans (projectionProgram init l) (.expr iter) d) : ∃ f, d.eval = value f := by
    rw [sequence_means hiter (by simp [helem]) hd]
    exact ⟨_, rfl⟩
  have hsum {sum lhs ref : HirExprId} {t x : SymbolId}
      (hsum : (projectionProgram init l).exprs sum = .binary .add lhs ref)
      (hlhs : (projectionProgram init l).resolvedPath lhs = some t)
      (href : (projectionProgram init l).resolvedPath ref = some x) (ht : S.IsCell t)
      (hx : S.IsCell x) (hd : S.NodeMeans (projectionProgram init l) (.expr sum) d) :
      ∃ f, d.eval = value f := by
    refine ⟨fun σ => S.binary sum .add (σ t) (σ x), ?_⟩
    funext σ
    exact projection_means hsum hlhs href ht hx hd σ
  have hmem : e ∈ [0, 6, 10, 16] := by
    by_contra hmem
    simp only [AgentEffectLegalityFacts.isMovable, sumsMovable, if_neg hmem, Option.any_none,
      Bool.false_eq_true] at he
  simp only [List.mem_cons, List.not_mem_nil, or_false] at hmem
  rcases hmem with rfl | rfl | rfl | rfl
  · exact hsequence rfl rfl hd
  · exact hsum rfl rfl rfl (hS.item_var 0 rfl) (hS.item_patternBinding 1 _ _ rfl) hd
  · exact hsequence rfl rfl hd
  · exact hsum rfl rfl rfl (hS.item_var 2 rfl) (hS.item_patternBinding 3 _ _ rfl) hd

private theorem projectionProgram_compares {S : Semantics V Id} (init l : HirLiteral) :
    S.ComparesAtOneType (projectionProgram init l) := by
  intro _ _ _ _ _ _ _ _ cond _ _ queryFirst _ hcond
  have hnone (lhs rhs : HirExprId) :
      (projectionProgram init l).exprs cond ≠ .binary .eqEq lhs rhs := by
    intro h
    dsimp only [projectionProgram] at h
    split at h <;> cases h
  cases queryFirst
  · exact absurd hcond (hnone _ _)
  · exact absurd hcond (hnone _ _)

/-- The elements are strings, which have one type. -/
theorem applyFusions_preserves_projections :
    ∃ found program' d,
      LoopFusionPass.fuseProjectionScans.findFusions (projectionProgram (.string "") (.string "k"))
        sumsMovable [0, 1, 2] = .ok found ∧ found.length = 1 ∧
      applyFusions 4 (projectionProgram (.string "") (.string "k")) found = .ok program' ∧
      (plainSemantics (projectionProgram (.string "") (.string "k"))).NodeMeans
        (projectionProgram (.string "") (.string "k")) (.block 0) d ∧
      (plainSemantics (projectionProgram (.string "") (.string "k"))).NodeMeans program'
        (.block 0) d := by
  have hS := plainSemantics_lawful (projectionProgram (.string "") (.string "k"))
  have hdepth : (projectionProgram (.string "") (.string "k")).depthAtMost 6 (.block 0) = true := by
    decide
  have hd := (plainSemantics (projectionProgram (.string "") (.string "k"))).nodeMeans_meaningAt hdepth
  have hfound : LoopFusionPass.fuseProjectionScans.findFusions
      (projectionProgram (.string "") (.string "k")) sumsMovable [0, 1, 2] =
        .ok [(0, [⟨1, 1, ⟨3, 3, 3, 10, [12], 2, 5, 2, 18⟩⟩])] := rfl
  have hsame : ∀ entry ∈ [((0 : HirBlockId), [(⟨1, 1, ⟨3, 3, 3, 10, [12], 2, 5, 2, 18⟩⟩ : Fusion)])],
      ∀ f ∈ entry.2, f.SameValues (plainSemantics (projectionProgram (.string "") (.string "k")))
        .fuseProjectionScans (projectionProgram (.string "") (.string "k")) sumsMovable := by
    intro entry _ f _ stmt first elems elems' hfuse hfirst helems helems'
    have hfuse : LoopFusionPass.fuseProjectionScans.fusePair _ sumsMovable
        (stmt, f.second.statement).1 (stmt, f.second.statement).2 = .ok (some f) := hfuse
    obtain ⟨first', hpair⟩ := fusePair_finds hfuse
    cases hfirst.symm.trans hpair.matchFirst
    exact literalValues_eq hpair.sequences helems helems' fun _ _ _ _ _ => rfl
  refine ⟨_, _, _, hfound, rfl, rfl, hd, ?_⟩
  have hpreserves := applyFusions_preserves (k := 4) hS (projectionProgram_loops _ _)
    (projectionProgram_compares _ _) (projectionProgram_sound _ _ hS)
    (projectionProgram_owned _ _) (by decide) hfound (fun _ => Iff.rfl) (by decide) hsame rfl
  exact hpreserves.2 0 (by decide) (by decide) _ hd

/-- Literals as IEEE numbers: `0.1` is one number at type 0, `f32`, and another at type 1, `f64`. -/
def floatSemantics (program : HirProgram) : Semantics PlainValue Id :=
  { plainSemantics program with
    typeOf := fun e => if e < 10 ∨ e = 20 then 0 else 1
    literal := fun
      | 0, .float "0.1" => .literal (.float "0.100000001490116119384765625")
      | 1, .float "0.1" =>
        .literal (.float "0.1000000000000000055511151231257827021181583404541015625")
      | _, l => .literal l
    binary := fun
      | _, .eqEq, .literal left, .literal right => .literal (.bool (left == right))
      | _, .add, .literal (.float "0.0"), sum => sum
      | _, _, _, _ => .unit }

private theorem floatSemantics_lawful (program : HirProgram) :
    (floatSemantics program).Lawful program where
  item_var := (plainSemantics_lawful program).item_var
  item_patternBinding := (plainSemantics_lawful program).item_patternBinding
  item_item := (plainSemantics_lawful program).item_item
  elements_sequence := (plainSemantics_lawful program).elements_sequence
  truth_bool := (plainSemantics_lawful program).truth_bool
  literal_bool ty b := by
    dsimp only [floatSemantics]
    split
    · next h => cases h
    · next h => cases h
    · rfl
  eqEq_literal id ty left right := by
    have hliteral (l : HirLiteral) : ∃ l', (floatSemantics program).literal ty l = .literal l' := by
      dsimp only [floatSemantics]
      split <;> exact ⟨_, rfl⟩
    obtain ⟨left', hleft⟩ := hliteral left
    obtain ⟨right', hright⟩ := hliteral right
    rw [hleft, hright]
    refine ⟨left' == right', rfl, fun h => ?_⟩
    rw [h, hright] at hleft
    cases hleft
    exact beq_self_eq_true _
  loop_within := (plainSemantics_lawful program).loop_within

/-- With `a: f32` and `b: f64`, the fused loop adds the `f32` number to `b`. -/
theorem applyFusions_types :
    (floatSemantics (projectionProgram (.float "0.0") (.float "0.1"))).Lawful
      (projectionProgram (.float "0.0") (.float "0.1")) ∧
    ∃ found program' d d',
      LoopFusionPass.fuseProjectionScans.findFusions (projectionProgram (.float "0.0") (.float "0.1"))
        sumsMovable [0, 1, 2] = .ok found ∧
      applyFusions 4 (projectionProgram (.float "0.0") (.float "0.1")) found = .ok program' ∧
      (floatSemantics (projectionProgram (.float "0.0") (.float "0.1"))).NodeMeans
        (projectionProgram (.float "0.0") (.float "0.1")) (.block 0) d ∧
      (floatSemantics (projectionProgram (.float "0.0") (.float "0.1"))).NodeMeans program'
        (.block 0) d' ∧
      ∀ σ, (d.eval σ).2 2 = .literal
          (.float "0.1000000000000000055511151231257827021181583404541015625") ∧
        (d'.eval σ).2 2 = .literal (.float "0.100000001490116119384765625") := by
  have hdepth : (projectionProgram (.float "0.0") (.float "0.1")).depthAtMost 6 (.block 0) = true := by
    decide
  refine ⟨floatSemantics_lawful _, _, _, _, _, rfl, rfl,
    (floatSemantics (projectionProgram (.float "0.0") (.float "0.1"))).nodeMeans_meaningAt hdepth,
    Semantics.nodeMeans_meaningAt _ (k := 6) (by decide), fun σ => ⟨rfl, rfl⟩⟩

end EtasFrontend.Optimization
