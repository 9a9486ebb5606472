import EtasFrontend.Optimization.LoopFusion

/-! The fused program as a list of edits, each at places of its own. -/
namespace EtasFrontend.Optimization
open Hir (HirExprId HirStmtId HirPatId HirBlockId SymbolId Halt)
open Lib

inductive FusionEdit where
  | fuse (fusion : Fusion)
  | remove (parent : HirBlockId) (fusions : List Fusion)

def applyEdit (n : ℕ) (program : HirProgram) : FusionEdit → Except Halt HirProgram
  | .fuse fusion => applyFusion n program fusion
  | .remove parent fusions => .ok (removeFused program parent fusions)

/-- The fusions of each block, and the removal of their second loops. -/
def fusionEdits (entries : List (HirBlockId × List Fusion)) : List FusionEdit :=
  entries.flatMap fun entry => entry.2.map .fuse ++ [.remove entry.1 entry.2]

theorem applyFusions_eq (n : ℕ) (program : HirProgram)
    (entries : List (HirBlockId × List Fusion)) :
    applyFusions n program entries = (fusionEdits entries).foldlM (applyEdit n) program := by
  induction entries generalizing program with
  | nil => rfl
  | cons entry entries ih =>
    have hentry : (entry.2.map FusionEdit.fuse ++ [FusionEdit.remove entry.1 entry.2]).foldlM (applyEdit n)
        program = (do
          let program ← entry.2.foldlM (applyFusion n) program
          return removeFused program entry.1 entry.2) := by
      rw [List.foldlM_append, List.foldlM_map]
      rfl
    rw [fusionEdits, List.flatMap_cons, List.foldlM_append, hentry]
    exact bind_congr fun program => ih program

theorem applyFusion_ok {n : ℕ} {program program' : HirProgram} {fusion : Fusion}
    (h : applyFusion n program fusion = .ok program') :
    program'.stmts = program.stmts ∧ program'.pats = program.pats ∧
      program'.handlerArms = program.handlerArms ∧ program'.symbols = program.symbols ∧
      program'.blocks = Function.update program.blocks fusion.firstBody
        { program.blocks fusion.firstBody with
          stmts := (program.blocks fusion.firstBody).stmts ++ [fusion.second.bodyStatement] } ∧
      ∃ segments span, program'.exprs = Function.update program.exprs fusion.second.loopReference
        (.path ⟨segments, .resolved fusion.firstLoopSymbol, span⟩) := by
  obtain ⟨iterExprs, -, h⟩ := bind_eq_ok.mp h
  obtain ⟨limitExprs, -, h⟩ := bind_eq_ok.mp h
  split at h
  · cases h
    exact ⟨rfl, rfl, rfl, rfl, rfl, _, _, rfl⟩
  · cases h

/-- The edits are at different places. -/
structure FusionEditsApart (entries : List (HirBlockId × List Fusion)) : Prop where
  nodup : (fusionEdits entries).Nodup
  references : ∀ entry ∈ entries, ∀ f ∈ entry.2, ∀ entry' ∈ entries, ∀ f' ∈ entry'.2,
    f.second.loopReference = f'.second.loopReference → f = f'
  bodies : ∀ entry ∈ entries, ∀ f ∈ entry.2, ∀ entry' ∈ entries, ∀ f' ∈ entry'.2,
    f.firstBody = f'.firstBody → f = f'
  parents : ∀ entry ∈ entries, ∀ entry' ∈ entries, entry.1 = entry'.1 → entry = entry'
  parent_body : ∀ entry ∈ entries, ∀ entry' ∈ entries, ∀ f' ∈ entry'.2, entry.1 ≠ f'.firstBody

/-- What the edits make of a program. -/
structure FusedProgram (program program' : HirProgram) (entries : List (HirBlockId × List Fusion)) :
    Prop where
  stmts : program'.stmts = program.stmts
  pats : program'.pats = program.pats
  handlerArms : program'.handlerArms = program.handlerArms
  symbols : program'.symbols = program.symbols
  exprs_same : ∀ e, (∀ entry ∈ entries, ∀ f ∈ entry.2, e ≠ f.second.loopReference) →
    program'.exprs e = program.exprs e
  exprs_reference : ∀ entry ∈ entries, ∀ f ∈ entry.2,
    program'.resolvedPath f.second.loopReference = some f.firstLoopSymbol
  blocks_same : ∀ b, (∀ entry ∈ entries, b ≠ entry.1 ∧ ∀ f ∈ entry.2, b ≠ f.firstBody) →
    program'.blocks b = program.blocks b
  blocks_body : ∀ entry ∈ entries, ∀ f ∈ entry.2, program'.blocks f.firstBody =
    { program.blocks f.firstBody with
      stmts := (program.blocks f.firstBody).stmts ++ [f.second.bodyStatement] }
  blocks_parent : ∀ entry ∈ entries, program'.blocks entry.1 =
    { program.blocks entry.1 with
      stmts := (program.blocks entry.1).stmts.filter fun stmt =>
        stmt ∉ entry.2.map fun fusion => fusion.second.statement }

variable {entries : List (HirBlockId × List Fusion)}

theorem mem_fusionEdits_fuse {f : Fusion} :
    FusionEdit.fuse f ∈ fusionEdits entries ↔ ∃ entry ∈ entries, f ∈ entry.2 := by
  simp [fusionEdits]

theorem mem_fusionEdits_remove {parent : HirBlockId} {fusions : List Fusion} :
    FusionEdit.remove parent fusions ∈ fusionEdits entries ↔ (parent, fusions) ∈ entries := by
  simp only [fusionEdits, List.mem_flatMap, List.mem_append, List.mem_map, reduceCtorEq, and_false,
    exists_false, List.mem_singleton, FusionEdit.remove.injEq, false_or]
  constructor
  · rintro ⟨entry, hentry, rfl, rfl⟩
    exact hentry
  · exact fun h => ⟨_, h, rfl, rfl⟩

variable {n : ℕ} {edit : FusionEdit} {program program' : HirProgram}

theorem applyEdit_frame (hstep : applyEdit n program edit = .ok program') :
    program'.stmts = program.stmts ∧ program'.pats = program.pats ∧
      program'.handlerArms = program.handlerArms ∧ program'.symbols = program.symbols := by
  cases edit with
  | fuse f =>
    obtain ⟨hstmts, hpats, harms, hsymbols, -⟩ := applyFusion_ok hstep
    exact ⟨hstmts, hpats, harms, hsymbols⟩
  | remove parent fusions =>
    cases hstep
    exact ⟨rfl, rfl, rfl, rfl⟩

theorem applyEdit_exprs (hedit : edit ∈ fusionEdits entries)
    (hstep : applyEdit n program edit = .ok program') {e : HirExprId}
    (h : ∀ entry ∈ entries, ∀ f ∈ entry.2, edit = .fuse f → e ≠ f.second.loopReference) :
    program'.exprs e = program.exprs e := by
  cases edit with
  | fuse f =>
    obtain ⟨entry, hentry, hf⟩ := mem_fusionEdits_fuse.mp hedit
    obtain ⟨-, -, -, -, -, segments, span, hexprs⟩ := applyFusion_ok hstep
    simp only [hexprs, Function.update_of_ne (h entry hentry f hf rfl)]
  | remove parent fusions =>
    cases hstep
    rfl

theorem applyEdit_blocks (hedit : edit ∈ fusionEdits entries)
    (hstep : applyEdit n program edit = .ok program') {b : HirBlockId}
    (hfuse : ∀ entry ∈ entries, ∀ f ∈ entry.2, edit = .fuse f → b ≠ f.firstBody)
    (hremove : ∀ entry ∈ entries, edit = .remove entry.1 entry.2 → b ≠ entry.1) :
    program'.blocks b = program.blocks b := by
  cases edit with
  | fuse f =>
    obtain ⟨entry, hentry, hf⟩ := mem_fusionEdits_fuse.mp hedit
    obtain ⟨-, -, -, -, hblocks, -⟩ := applyFusion_ok hstep
    simp only [hblocks, Function.update_of_ne (hfuse entry hentry f hf rfl)]
  | remove parent fusions =>
    cases hstep
    exact Function.update_of_ne (hremove _ (mem_fusionEdits_remove.mp hedit) rfl) _ _

theorem applyFusions_fused (hapart : FusionEditsApart entries)
    (h : applyFusions n program entries = .ok program') : FusedProgram program program' entries := by
  rw [applyFusions_eq] at h
  -- a component that no edit touches
  have kept {α : Type} (obs : HirProgram → α) (hobs : ∀ edit ∈ fusionEdits entries, ∀ s s',
      applyEdit n s edit = .ok s' → obs s' = obs s) : obs program' = obs program :=
    foldlM_ok_keeps_mem (p := fun s => obs s = obs program)
      (fun edit hedit s s' hs hstep => (hobs edit hedit s s' hstep).trans hs) rfl h
  refine ⟨kept (·.stmts) fun _ _ _ _ hstep => (applyEdit_frame hstep).1,
    kept (·.pats) fun _ _ _ _ hstep => (applyEdit_frame hstep).2.1,
    kept (·.handlerArms) fun _ _ _ _ hstep => (applyEdit_frame hstep).2.2.1,
    kept (·.symbols) fun _ _ _ _ hstep => (applyEdit_frame hstep).2.2.2, fun e he => ?_,
    fun entry hentry f hf => ?_, fun b hb => ?_, fun entry hentry f hf => ?_, fun entry hentry => ?_⟩
  · exact kept (·.exprs e) fun _ hedit _ _ hstep =>
      applyEdit_exprs hedit hstep fun entry hentry f hf _ => he entry hentry f hf
  · obtain ⟨s₁, s₂, -, hstep, hobs⟩ := foldlM_ok_once
      (fun s : HirProgram => s.exprs f.second.loopReference) hapart.nodup
      (mem_fusionEdits_fuse.mpr ⟨entry, hentry, hf⟩) (fun edit hedit hne s s' hstep =>
        applyEdit_exprs hedit hstep fun entry' hentry' f' hf' heq hreference =>
          hne (by rw [heq, hapart.references entry hentry f hf entry' hentry' f' hf' hreference])) h
    obtain ⟨-, -, -, -, -, segments, span, hexprs⟩ := applyFusion_ok hstep
    rw [HirProgram.resolvedPath_eq_some]
    exact ⟨_, by rw [hobs, hexprs, Function.update_self], rfl⟩
  · exact kept (·.blocks b) fun _ hedit _ _ hstep =>
      applyEdit_blocks hedit hstep (fun entry hentry f hf _ => (hb entry hentry).2 f hf)
        fun entry hentry _ => (hb entry hentry).1
  · obtain ⟨s₁, s₂, hbefore, hstep, hobs⟩ := foldlM_ok_once
      (fun s : HirProgram => s.blocks f.firstBody) hapart.nodup
      (mem_fusionEdits_fuse.mpr ⟨entry, hentry, hf⟩) (fun edit hedit hne s s' hstep =>
        applyEdit_blocks hedit hstep
          (fun entry' hentry' f' hf' heq hbody =>
            hne (by rw [heq, hapart.bodies entry hentry f hf entry' hentry' f' hf' hbody]))
          fun entry' hentry' _ => (hapart.parent_body entry' hentry' entry hentry f hf).symm) h
    obtain ⟨-, -, -, -, hblocks, -⟩ := applyFusion_ok hstep
    rw [hobs, hblocks, Function.update_self, hbefore]
  · obtain ⟨s₁, s₂, hbefore, hstep, hobs⟩ := foldlM_ok_once
      (fun s : HirProgram => s.blocks entry.1) hapart.nodup
      (mem_fusionEdits_remove.mpr hentry) (fun edit hedit hne s s' hstep =>
        applyEdit_blocks hedit hstep
          (fun entry' hentry' f' hf' _ => hapart.parent_body entry hentry entry' hentry' f' hf')
          fun entry' hentry' heq hparent =>
            hne (by rw [heq, hapart.parents entry hentry entry' hentry' hparent])) h
    cases hstep
    have hremoved : (removeFused s₁ entry.1 entry.2).blocks entry.1 =
        { s₁.blocks entry.1 with
          stmts := (s₁.blocks entry.1).stmts.filter fun stmt =>
            stmt ∉ entry.2.map fun fusion => fusion.second.statement } := Function.update_self ..
    rw [hobs, hremoved, hbefore]

end EtasFrontend.Optimization
