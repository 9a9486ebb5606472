import EtasFrontend.Lib.AdjacentPairs
import EtasFrontend.Optimization.FusionBody
import EtasFrontend.Optimization.FusionEdits

/-! What the fusion passes find, and that what they edit for one pair is no part of another. -/
namespace EtasFrontend.Optimization
open Hir (HirExprId HirStmtId HirPatId HirBlockId SymbolId HirLiteral HirTreeChild Halt)
open Lib

/-! What the matchers find. -/

variable {program : HirProgram}

theorem literalSequence_eq_some {iter : HirExprId} {literals : List HirLiteral}
    (h : program.literalSequence iter = some literals) :
    ∃ elems, program.sequenceElements iter = some elems ∧ elems.length = literals.length ∧
      ∀ e ∈ elems, (program.literal e).isSome := by
  obtain ⟨elems, helems, hliterals⟩ := Option.bind_eq_some_iff.mp h
  have hpairs := program.mapM_literal hliterals
  refine ⟨elems, helems, hpairs.length_eq, fun e he => ?_⟩
  obtain ⟨l, -, hl⟩ := forall₂_mem_left hpairs he
  rw [hl]
  rfl

variable {legality : AgentEffectLegalityFacts}

theorem coveredLoop_finds {stmt : HirStmtId} {pat : HirPatId} {x : SymbolId} {iter : HirExprId}
    {limits : List HirExprId} {body : HirBlockId} {bodyStmt : HirStmtId}
    (h : program.coveredLoop legality stmt = .ok (some (pat, x, iter, limits, body, bodyStmt))) :
    ∃ elems, LiteralLoop program stmt pat x iter elems limits body bodyStmt := by
  unfold HirProgram.coveredLoop at h
  split at h
  case h_2 => cases h
  next pat' iter' limits' body' hstmt =>
  split at h
  case h_2 => cases h
  next x' literals hpat hliterals =>
  obtain ⟨covers, hcovers, h⟩ := bind_eq_ok.mp h
  split at h
  case isTrue => cases h
  next hchecks =>
  cases covers
  case false => exact absurd rfl hchecks
  split at h
  case h_2 => cases h
  next bodyStmt' scope hbody =>
  cases h
  obtain ⟨elems, helems, hlength, hsome⟩ := literalSequence_eq_some hliterals
  rw [FuseProjectionScans.iterationLimitCovers_eq, ← hlength] at hcovers
  exact ⟨elems, hstmt, hpat, helems, hsome, iterationLimitCovers_eq_true hcovers, scope, hbody⟩

theorem calledItemHasMarker_item {callee : HirExprId} {marker : String}
    (h : program.calledItemHasMarker callee marker = true) :
    ∃ symbol, program.resolvedPath callee = some symbol ∧
      ∃ name kind item, program.symbols symbol = some ⟨name, kind, .item item⟩ := by
  unfold HirProgram.calledItemHasMarker at h
  split at h
  · next symbol hcallee =>
    split at h
    · next name kind item hsymbol => exact ⟨symbol, hcallee, name, kind, item, hsymbol⟩
    · cases h
  · cases h

/-- What a matcher has found out about a loop. -/
structure Recognised (pass : LoopFusionPass) (program : HirProgram)
    (legality : AgentEffectLegalityFacts) (loop : FusedLoop) (shape : BodyShape)
    (elems : List HirExprId) : Prop where
  pass : shape.pass = pass
  covered : LiteralLoop program loop.statement loop.pattern loop.loopSymbol loop.iterable elems
    loop.limits loop.body loop.bodyStatement
  isVar : program.isVar loop.targetSymbol = true
  movable : legality.isMovable shape.moved = true
  body : IsBody program loop.loopSymbol loop.targetSymbol loop.bodyStatement loop.loopReference shape

variable {pass : LoopFusionPass}

theorem matchLoop_finds {stmt : HirStmtId} {loop : FusedLoop}
    (h : pass.matchLoop program legality stmt = .ok (some loop)) :
    loop.statement = stmt ∧ ∃ shape elems, Recognised pass program legality loop shape elems := by
  cases pass with
  | fuseProjectionScans =>
    obtain ⟨covered, hcovered, h⟩ := bind_eq_ok.mp h
    split at h
    case h_1 => cases h
    next pat x iter limits body bodyStmt =>
    obtain ⟨elems, hloop⟩ := coveredLoop_finds hcovered
    split at h
    case h_2 => cases h
    next target value hassign =>
    split at h
    case h_2 => cases h
    next t lhs rhs htarget hvalue =>
    split at h
    case isFalse => cases h
    next hchecks =>
    cases h
    simp only [Bool.and_eq_true, decide_eq_true_eq] at hchecks
    obtain ⟨⟨⟨ht, hlhs⟩, hrhs⟩, hmovable⟩ := hchecks
    exact ⟨rfl, .projection target value lhs, elems, rfl, hloop, ht, hmovable,
      .projection hassign htarget hvalue hlhs hrhs⟩
  | batchStorageSemijoin =>
    obtain ⟨covered, hcovered, h⟩ := bind_eq_ok.mp h
    split at h
    case h_1 => cases h
    next pat x iter limits body bodyStmt =>
    obtain ⟨elems, hloop⟩ := coveredLoop_finds hcovered
    split at h
    case h_2 => cases h
    next ifExpr hstmt =>
    split at h
    case h_2 => cases h
    next cond thenBlock hif =>
    split at h
    case h_2 => cases h
    next lhs rhs assignment scope hcond hthen =>
    dsimp only at h
    split at h
    case h_2 => cases h
    next ref probe target value hoperands hassign =>
    split at h
    case h_2 => cases h
    next t htarget =>
    split at h
    case isFalse => cases h
    next hchecks =>
    cases h
    simp only [Bool.and_eq_true, decide_eq_true_eq] at hchecks
    obtain ⟨⟨⟨⟨hmovable, -⟩, hvalue⟩, -⟩, ht⟩ := hchecks
    have hfound := List.find?_some hoperands
    have hmem := List.mem_of_find?_eq_some hoperands
    simp only [Bool.and_eq_true, decide_eq_true_eq] at hfound
    simp only [List.mem_cons, Prod.mk.injEq, List.not_mem_nil, or_false] at hmem
    rcases hmem with ⟨rfl, rfl⟩ | ⟨rfl, rfl⟩
    · exact ⟨rfl, .membership ifExpr cond probe false thenBlock assignment target value, elems, rfl,
        hloop, ht, hmovable, .membership hstmt hif hcond hfound.2 ⟨scope, hthen⟩ hassign hvalue
          htarget hfound.1⟩
    · exact ⟨rfl, .membership ifExpr cond probe true thenBlock assignment target value, elems, rfl,
        hloop, ht, hmovable, .membership hstmt hif hcond hfound.2 ⟨scope, hthen⟩ hassign hvalue
          htarget hfound.1⟩
  | scheduleBoundedPipeline =>
    obtain ⟨covered, hcovered, h⟩ := bind_eq_ok.mp h
    split at h
    case h_1 => cases h
    next pat x iter limits body bodyStmt =>
    obtain ⟨elems, hloop⟩ := coveredLoop_finds hcovered
    split at h
    case h_2 => cases h
    next target value hassign =>
    split at h
    case h_2 => cases h
    next t callee accumulator ref htarget hvalue =>
    split at h
    case isFalse => cases h
    next hchecks =>
    cases h
    simp only [Bool.and_eq_true, decide_eq_true_eq] at hchecks
    obtain ⟨⟨⟨⟨⟨ht, hmarker⟩, hacc⟩, href⟩, hmovable⟩, -⟩ := hchecks
    obtain ⟨symbol, hcallee, hsymbol⟩ := calledItemHasMarker_item hmarker
    exact ⟨rfl, .stage target value callee accumulator symbol, elems, rfl, hloop, ht, hmovable,
      .stage hassign htarget hvalue hcallee hsymbol hacc href⟩

/-- The pair of loops of a fusion. -/
structure FusedPair (pass : LoopFusionPass) (program : HirProgram)
    (legality : AgentEffectLegalityFacts) (pair : HirStmtId × HirStmtId) (fusion : Fusion)
    (first : FusedLoop) : Prop where
  matchFirst : pass.matchLoop program legality pair.1 = .ok (some first)
  matchSecond : pass.matchLoop program legality pair.2 = .ok (some fusion.second)
  firstBody : fusion.firstBody = first.body
  firstLoopSymbol : fusion.firstLoopSymbol = first.loopSymbol
  targets : first.targetSymbol ≠ fusion.second.targetSymbol
  sequences : program.equivalentLiteralSequence first.iterable fusion.second.iterable = true

theorem fusePair_finds {pair : HirStmtId × HirStmtId} {fusion : Fusion}
    (h : pass.fusePair program legality pair.1 pair.2 = .ok (some fusion)) :
    ∃ first, FusedPair pass program legality pair fusion first := by
  obtain ⟨first, hfirst, h⟩ := bind_eq_ok.mp h
  cases first with
  | none => cases h
  | some first =>
    obtain ⟨second, hsecond, h⟩ := bind_eq_ok.mp h
    cases second with
    | none => cases h
    | some second =>
      obtain ⟨firstCount, -, h⟩ := bind_eq_ok.mp h
      obtain ⟨secondCount, -, h⟩ := bind_eq_ok.mp h
      split at h
      · cases h
      · next hchecks =>
        cases h
        simp only [Bool.or_eq_true, decide_eq_true_eq, Bool.not_eq_true', not_or,
          Bool.not_eq_false] at hchecks
        exact ⟨first, hfirst, hsecond, rfl, rfl, hchecks.1.1, hchecks.1.2⟩

theorem fuseStatements_pairs {stmts : List HirStmtId} {fusions : List Fusion}
    (h : pass.fuseStatements program legality stmts = .ok fusions) :
    ∃ pairs, AdjacentPairs stmts pairs ∧
      List.Forall₂ (fun p f => pass.fusePair program legality p.1 p.2 = .ok (some f)) pairs
        fusions := by
  have skip (l : List HirStmtId) : AdjacentPairs l [] := by
    induction l with
    | nil => exact .nil
    | cons a l ih => exact .keep a ih
  fun_induction pass.fuseStatements program legality stmts generalizing fusions with
  | case1 first second rest ih' ih =>
    obtain ⟨found, hfound, h⟩ := bind_eq_ok.mp h
    cases found with
    | none =>
      obtain ⟨pairs, hpairs, hfuse⟩ := ih h
      exact ⟨pairs, .keep first hpairs, hfuse⟩
    | some fusion =>
      obtain ⟨others, hothers, h⟩ := bind_eq_ok.mp h
      cases h
      obtain ⟨pairs, hpairs, hfuse⟩ := ih' hothers
      exact ⟨(first, second) :: pairs, .pair first second hpairs, .cons hfound hfuse⟩
  | case2 stmts =>
    cases h
    exact ⟨[], skip stmts, .nil⟩

/-- The fusions of the blocks, in any order of the blocks, with the pairs of loops of each. -/
structure FoundFusions (pass : LoopFusionPass) (program : HirProgram)
    (legality : AgentEffectLegalityFacts) (entries : List (HirBlockId × List Fusion))
    (pairs : HirBlockId × List Fusion → List (HirStmtId × HirStmtId)) : Prop where
  keys : (entries.map Prod.fst).Nodup
  nonempty : ∀ entry ∈ entries, entry.2 ≠ []
  adjacent : ∀ entry ∈ entries, AdjacentPairs (program.blocks entry.1).stmts (pairs entry)
  fuses : ∀ entry ∈ entries, List.Forall₂
    (fun p f => pass.fusePair program legality p.1 p.2 = .ok (some f)) (pairs entry) entry.2

theorem findFusions_found {blocks : List HirBlockId}
    {found entries : List (HirBlockId × List Fusion)}
    (h : pass.findFusions program legality blocks = .ok found)
    (hentries : ∀ entry, entry ∈ entries ↔ entry ∈ found) (hkeys : (entries.map Prod.fst).Nodup) :
    ∃ pairs, FoundFusions pass program legality entries pairs := by
  obtain ⟨all, hall, h⟩ := bind_eq_ok.mp h
  cases h
  have hfound : ∀ entry ∈ entries, entry.2 ≠ [] ∧ ∃ pairs,
      AdjacentPairs (program.blocks entry.1).stmts pairs ∧ List.Forall₂
        (fun p f => pass.fusePair program legality p.1 p.2 = .ok (some f)) pairs entry.2 := by
    intro entry hentry
    obtain ⟨hmem, hempty⟩ := List.mem_filter.mp ((hentries entry).mp hentry)
    obtain ⟨block, -, hblock⟩ := forall₂_mem_right (mapM_ok hall) hmem
    obtain ⟨fusions, hfusions, hblock⟩ := bind_eq_ok.mp hblock
    cases hblock
    exact ⟨by simpa using hempty, fuseStatements_pairs hfusions⟩
  choose! hne pairs hpairs using hfound
  exact ⟨pairs, hkeys, hne, fun entry h => (hpairs entry h).1, fun entry h => (hpairs entry h).2⟩

/-! The places of the edits. -/

/-- The nodes below a loop, down to the reference to its variable. -/
def FusedLoop.chain (loop : FusedLoop) (shape : BodyShape) : List HirTreeChild :=
  .block loop.body :: .stmt loop.bodyStatement ::
    (shape.spine.map .expr ++ [.expr loop.loopReference])

theorem FusedLoop.chain_getLast? (loop : FusedLoop) (shape : BodyShape) :
    (HirTreeChild.stmt loop.statement :: loop.chain shape).getLast? =
      some (.expr loop.loopReference) := by
  change ((_ :: _ :: _ :: shape.spine.map HirTreeChild.expr) ++
    [HirTreeChild.expr loop.loopReference]).getLast? = _
  exact List.getLast?_concat

theorem Recognised.isChain {loop : FusedLoop} {shape : BodyShape} {elems : List HirExprId}
    (h : Recognised pass program legality loop shape elems) :
    (HirTreeChild.stmt loop.statement :: loop.chain shape).IsChain
      fun p c => c ∈ program.parts p := by
  obtain ⟨scope, hbody⟩ := h.covered.body
  rw [FusedLoop.chain, List.isChain_cons_cons, List.isChain_cons_cons]
  refine ⟨?_, ?_, h.body.chain⟩
  · simp [HirProgram.parts, h.covered.stmt, Hir.HirStmt.children]
  · simp [HirProgram.parts, hbody]

theorem BodyShape.spine_length {shape shape' : BodyShape} (h : shape.pass = shape'.pass) :
    shape.spine.length = shape'.spine.length := by
  cases shape <;> cases shape' <;> first | rfl | cases h

namespace FoundFusions
variable {pass : LoopFusionPass} {program : HirProgram} {legality : AgentEffectLegalityFacts}
  {entries : List (HirBlockId × List Fusion)}
  {pairs : HirBlockId × List Fusion → List (HirStmtId × HirStmtId)} {used : HirTreeChild → Prop}
  {entry entry' : HirBlockId × List Fusion} {p p' : HirStmtId × HirStmtId} {f f' : Fusion}

theorem exists_pair (h : FoundFusions pass program legality entries pairs)
    (hentry : entry ∈ entries) (hf : f ∈ entry.2) : ∃ p ∈ pairs entry,
      pass.fusePair program legality p.1 p.2 = .ok (some f) ∧
        ∃ first, FusedPair pass program legality p f first := by
  obtain ⟨p, hp, hfuse⟩ := forall₂_mem_right (h.fuses entry hentry) hf
  exact ⟨p, hp, hfuse, fusePair_finds hfuse⟩

theorem part (h : FoundFusions pass program legality entries pairs) (hentry : entry ∈ entries)
    {s : HirStmtId} (hs : s ∈ members (pairs entry)) :
    .stmt s ∈ program.parts (.block entry.1) := by
  have hmem := (h.adjacent entry hentry).sublist.subset hs
  simp [HirProgram.parts, hmem]

theorem stmts_nodup (howned : Owned program.parts used) (hused : used (.block entry.1)) :
    (program.blocks entry.1).stmts.Nodup := by
  have hparts := howned.nodup _ hused
  rw [HirProgram.parts] at hparts
  exact (List.Nodup.of_append_left hparts).of_map _

theorem seconds_eq (h : FoundFusions pass program legality entries pairs)
    (hentry : entry ∈ entries) :
    entry.2.map (fun f => f.second.statement) = (pairs entry).map Prod.snd := by
  refine List.forall₂_eq_eq_eq ▸ ?_
  rw [List.forall₂_map_left_iff, List.forall₂_map_right_iff]
  refine (h.fuses entry hentry).flip.imp fun f p hfuse => ?_
  obtain ⟨first, hpair⟩ := fusePair_finds hfuse
  exact (matchLoop_finds hpair.matchSecond).1

section
variable (h : FoundFusions pass program legality entries pairs) (howned : Owned program.parts used)
  (hused : ∀ entry ∈ entries, used (.block entry.1)) (hentry : entry ∈ entries)
  (hentry' : entry' ∈ entries)
include h howned hused hentry hentry'

theorem entry_eq {s : HirStmtId} (hs : s ∈ members (pairs entry)) (hs' : s ∈ members (pairs entry')) :
    entry = entry' := by
  have hblock := howned.owner _ _ _ (hused entry hentry) (hused entry' hentry')
    (h.part hentry hs) (h.part hentry' hs')
  exact List.inj_on_of_nodup_map h.keys hentry hentry' (HirTreeChild.block.inj hblock)

/-- No loop has two partners. -/
theorem pair_eq (hp : p ∈ pairs entry) (hp' : p' ∈ pairs entry') :
    (p.1 = p'.1 → entry = entry' ∧ p = p') ∧ (p.2 = p'.2 → entry = entry' ∧ p = p') ∧
      p.1 ≠ p'.2 := by
  have hnodup := (h.adjacent entry hentry).nodup (stmts_nodup howned (hused entry hentry))
  refine ⟨fun heq => ?_, fun heq => ?_, fun heq => ?_⟩
  · have hsame := h.entry_eq howned hused hentry hentry' (fst_mem_members hp)
      (heq ▸ fst_mem_members hp')
    subst hsame
    exact ⟨rfl, (members_nodup hnodup hp hp').1 heq⟩
  · have hsame := h.entry_eq howned hused hentry hentry' (snd_mem_members hp)
      (heq ▸ snd_mem_members hp')
    subst hsame
    exact ⟨rfl, (members_nodup hnodup hp hp').2.1 heq⟩
  · have hsame := h.entry_eq howned hused hentry hentry' (fst_mem_members hp)
      (heq ▸ snd_mem_members hp')
    subst hsame
    exact (members_nodup hnodup hp hp').2.2 heq

section Loops
variable {s s' : HirStmtId} (hs : s ∈ members (pairs entry)) (hs' : s' ∈ members (pairs entry'))
  {loop loop' : FusedLoop} (hloop : pass.matchLoop program legality s = .ok (some loop))
  (hloop' : pass.matchLoop program legality s' = .ok (some loop'))
include hs hs' hloop hloop'

/-- A reference belongs to one loop. -/
theorem reference_eq (href : loop.loopReference = loop'.loopReference) : s = s' := by
  obtain ⟨rfl, shape, elems, hfinds⟩ := matchLoop_finds hloop
  obtain ⟨rfl, shape', elems', hfinds'⟩ := matchLoop_finds hloop'
  have hlive := howned.live_part _ _ (hused entry hentry) (h.part hentry hs)
  have hlive' := howned.live_part _ _ (hused entry' hentry') (h.part hentry' hs')
  have hspine := BodyShape.spine_length (hfinds.pass.trans hfinds'.pass.symm)
  have hhead := howned.head_eq_of_chain hfinds.isChain hfinds'.isChain hlive hlive'
    (by simp [FusedLoop.chain, hspine]) (by rw [loop.chain_getLast?, loop'.chain_getLast?, href])
  exact HirTreeChild.stmt.inj hhead

/-- A body belongs to one loop. -/
theorem body_eq (hbody : loop.body = loop'.body) : s = s' := by
  obtain ⟨rfl, shape, elems, hfinds⟩ := matchLoop_finds hloop
  obtain ⟨rfl, shape', elems', hfinds'⟩ := matchLoop_finds hloop'
  have hlive := howned.live_part _ _ (hused entry hentry) (h.part hentry hs)
  have hlive' := howned.live_part _ _ (hused entry' hentry') (h.part hentry' hs')
  have hpart : HirTreeChild.block loop.body ∈ program.parts (.stmt loop.statement) := by
    simp [HirProgram.parts, hfinds.covered.stmt, Hir.HirStmt.children]
  have hpart' : HirTreeChild.block loop'.body ∈ program.parts (.stmt loop'.statement) := by
    simp [HirProgram.parts, hfinds'.covered.stmt, Hir.HirStmt.children]
  exact HirTreeChild.stmt.inj (howned.owner _ _ _ hlive hlive' hpart (hbody ▸ hpart'))

end Loops

end

variable (h : FoundFusions pass program legality entries pairs)
include h

theorem two_le_length (hentry : entry ∈ entries) : 2 ≤ (program.blocks entry.1).stmts.length := by
  obtain ⟨f, hf⟩ := List.exists_mem_of_ne_nil _ (h.nonempty entry hentry)
  obtain ⟨p, hp, -⟩ := h.exists_pair hentry hf
  refine le_trans ?_ (h.adjacent entry hentry).sublist.length_le
  cases hpairs : pairs entry with
  | nil => simp [hpairs] at hp
  | cons q rest => simp

theorem parent_ne_body
    (hentry : entry ∈ entries) {loop : FusedLoop} {s : HirStmtId}
    (hloop : pass.matchLoop program legality s = .ok (some loop)) : entry.1 ≠ loop.body := by
  intro heq
  obtain ⟨-, shape, elems, hfinds⟩ := matchLoop_finds hloop
  obtain ⟨scope, hbody⟩ := hfinds.covered.body
  have hlength := h.two_le_length hentry
  rw [heq, hbody] at hlength
  simp at hlength

theorem apart
    (howned : Owned program.parts used) (hused : ∀ entry ∈ entries, used (.block entry.1)) :
    FusionEditsApart entries := by
  have hsame {entry entry' : HirBlockId × List Fusion} {f f' : Fusion} (hentry : entry ∈ entries)
      (hentry' : entry' ∈ entries) (hf : f ∈ entry.2) (hf' : f' ∈ entry'.2)
      (heq : f.firstBody = f'.firstBody ∨ f.second.loopReference = f'.second.loopReference) :
      entry = entry' ∧ f = f' := by
    obtain ⟨p, hp, hfuse, first, hpair⟩ := h.exists_pair hentry hf
    obtain ⟨p', hp', hfuse', first', hpair'⟩ := h.exists_pair hentry' hf'
    have heqs := h.pair_eq howned hused hentry hentry' hp hp'
    have hpp : entry = entry' ∧ p = p' := by
      rcases heq with heq | heq
      · exact heqs.1 (h.body_eq howned hused hentry hentry' (fst_mem_members hp)
          (fst_mem_members hp') hpair.matchFirst hpair'.matchFirst
          (hpair.firstBody.symm.trans (heq.trans hpair'.firstBody)))
      · exact heqs.2.1 (h.reference_eq howned hused hentry hentry' (snd_mem_members hp)
          (snd_mem_members hp') hpair.matchSecond hpair'.matchSecond heq)
    refine ⟨hpp.1, ?_⟩
    rw [hpp.2, hfuse'] at hfuse
    cases hfuse
    rfl
  have hparents : ∀ entry ∈ entries, ∀ entry' ∈ entries, entry.1 = entry'.1 → entry = entry' :=
    fun entry hentry entry' hentry' heq => List.inj_on_of_nodup_map h.keys hentry hentry' heq
  refine ⟨?_, fun entry hentry f hf entry' hentry' f' hf' heq =>
    (hsame hentry hentry' hf hf' (.inr heq)).2, fun entry hentry f hf entry' hentry' f' hf' heq =>
    (hsame hentry hentry' hf hf' (.inl heq)).2, hparents, fun entry hentry entry' hentry' f' hf' => ?_⟩
  · rw [fusionEdits, List.nodup_flatMap]
    refine ⟨fun entry hentry => ?_, ?_⟩
    · have hfusions : entry.2.Nodup := by
        refine List.Nodup.of_map (fun f => f.second.statement) ?_
        rw [h.seconds_eq hentry]
        exact ((h.adjacent entry hentry).nodup (stmts_nodup howned (hused entry hentry))).sublist
          (map_snd_sublist _)
      rw [List.nodup_append]
      refine ⟨hfusions.map fun f f' heq => FusionEdit.fuse.inj heq, List.nodup_singleton _, ?_⟩
      simp
    · refine (List.Nodup.of_map _ h.keys).pairwise_of_forall_ne fun entry hentry entry' hentry' hne => ?_
      intro edit hedit hedit'
      cases edit with
      | fuse f =>
        have hf : f ∈ entry.2 := by simpa using hedit
        have hf' : f ∈ entry'.2 := by simpa using hedit'
        exact hne (hsame hentry hentry' hf hf' (.inl rfl)).1
      | remove parent fusions =>
        simp only [List.mem_append, List.mem_map, reduceCtorEq, and_false, exists_false,
          List.mem_singleton, FusionEdit.remove.injEq, false_or] at hedit hedit'
        exact hne (hparents entry hentry entry' hentry' (hedit.1.symm.trans hedit'.1))
  · obtain ⟨p, hp, -, first, hpair⟩ := h.exists_pair hentry' hf'
    rw [hpair.firstBody]
    exact h.parent_ne_body hentry hpair.matchFirst

end FoundFusions
end EtasFrontend.Optimization
