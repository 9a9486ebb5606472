import EtasFrontend.Effects.Summary
import EtasFrontend.Effects.TraceLanguage

/-! The join of summaries against their order. -/
namespace EtasFrontend.Effects
open Lib EtasFrontend.Types

variable {D : SummaryData}

/-! Sets and rows. -/

theorem unionAssign_flag {α : Type} [DecidableEq α] {s t : Finset α} :
    (unionAssign s t).2 = false ↔ t ⊆ s := by
  have hsub : s ⊆ s ∪ t := Finset.subset_union_left
  constructor
  · intro h
    have hcard : (s ∪ t).card = s.card := by simpa [unionAssign] using h
    have heq : s = s ∪ t := Finset.eq_of_subset_of_card_le hsub hcard.le
    exact heq ▸ Finset.subset_union_right
  · intro h
    simp [unionAssign, Finset.union_eq_left.2 h]

theorem lawful_sets {α : Type} [DecidableEq α] :
    LawfulJoin (fun s t : Finset α => decide (s ⊆ t)) unionAssign fun _ _ => True where
  left s t := by simp [unionAssign]
  right s t _ := by simp [unionAssign]
  unchanged s t h := Finset.union_eq_left.2 (unionAssign_flag.1 h)
  absorbed s t h := by
    have hts : t ⊆ s := of_decide_eq_true h
    exact Prod.ext (Finset.union_eq_left.2 hts) (unionAssign_flag.2 hts)

variable {tail : Option EffectVarId}

namespace EffectRow

/-- Closed, or open with this tail. -/
def Within (tail : Option EffectVarId) (row : EffectRow) : Prop :=
  row.openVar = none ∨ row.openVar = tail

def TailsAgree (a b : EffectRow) : Prop := ∃ tail, a.Within tail ∧ b.Within tail

theorem rowLessEqual_iff {a b : EffectRow} :
    rowLessEqual a b = true ↔
      a.effects ⊆ b.effects ∧ ∀ v, a.openVar = some v → b.openVar = some v := by
  obtain ⟨e, t⟩ := a
  obtain ⟨e', t'⟩ := b
  cases t <;> cases t' <;> simp [rowLessEqual]
  exact fun _ => eq_comm

theorem rowLessEqual_refl (a : EffectRow) : rowLessEqual a a = true :=
  rowLessEqual_iff.2 ⟨subset_rfl, fun _ h => h⟩

theorem rowLessEqual_trans {a b c : EffectRow} (hab : rowLessEqual a b = true)
    (hbc : rowLessEqual b c = true) : rowLessEqual a c = true := by
  rw [rowLessEqual_iff] at *
  exact ⟨hab.1.trans hbc.1, fun v h => hbc.2 v (hab.2 v h)⟩

@[simp] theorem unionAssign_effects (a b : EffectRow) :
    (a.unionAssign b).1.effects = a.effects ∪ b.effects := by
  unfold EffectRow.unionAssign
  split <;> rfl

@[simp] theorem unionAssign_openVar (a b : EffectRow) :
    (a.unionAssign b).1.openVar = a.openVar.or b.openVar := by
  obtain ⟨e, t⟩ := a
  obtain ⟨e', t'⟩ := b
  cases t <;> cases t' <;> rfl

theorem Within.unionAssign {a b : EffectRow} (ha : a.Within tail) (hb : b.Within tail) :
    (a.unionAssign b).1.Within tail := by
  unfold Within at *
  rw [unionAssign_openVar]
  cases h : a.openVar with
  | none => simpa [h] using hb
  | some v => simpa [h] using ha

theorem lawful_rows : LawfulJoin rowLessEqual EffectRow.unionAssign TailsAgree where
  left a b := rowLessEqual_iff.2 ⟨by simp, fun v h => by simp [h]⟩
  right a b := by
    rintro ⟨tail, ha, hb⟩
    refine rowLessEqual_iff.2 ⟨by simp, fun v h => ?_⟩
    have hv : tail = some v := by simpa [Within, h, eq_comm] using hb
    obtain ha | ha := ha <;> simp [ha, h, hv]
  unchanged a b h := by
    unfold EffectRow.unionAssign at h ⊢
    split at h
    · cases h
    · next hc =>
      rw [if_neg hc]
      simp only [lawful_sets.unchanged _ _ h]
  absorbed a b h := by
    obtain ⟨he, ht⟩ := rowLessEqual_iff.1 h
    unfold EffectRow.unionAssign
    split
    · next hc =>
      obtain ⟨hn, hs⟩ := Bool.and_eq_true_iff.1 hc
      obtain ⟨v, hv⟩ := Option.isSome_iff_exists.1 hs
      simp [ht v hv] at hn
    · rw [lawful_sets.absorbed _ _ (decide_eq_true he)]

end EffectRow

theorem lawful_requests :
    LawfulJoin (RequestInstantiationSummary.lessEqual (D := D)) RequestInstantiationSummary.unionAssign
      fun _ _ => True where
  left a b := by cases a <;> cases b <;> simp [RequestInstantiationSummary.lessEqual,
    RequestInstantiationSummary.unionAssign]
  right a b _ := by cases a <;> cases b <;> simp [RequestInstantiationSummary.lessEqual,
    RequestInstantiationSummary.unionAssign]
  unchanged a b h := by
    obtain ⟨as, ps⟩ | _ := a <;> obtain ⟨bs, qs⟩ | _ := b
    · obtain ⟨ha, hp⟩ := Prod.mk.inj (bne_eq_false_iff_eq.1 h)
      have hbs : bs ⊆ as := unionAssign_flag.1 (by simp [unionAssign, ha])
      have hqs : qs ⊆ ps := unionAssign_flag.1 (by simp [unionAssign, hp])
      simp [RequestInstantiationSummary.unionAssign, hbs, hqs]
    · cases h
    · rfl
    · rfl
  absorbed a b h := by
    obtain ⟨as, ps⟩ | _ := a <;> obtain ⟨bs, qs⟩ | _ := b
    · have hc : bs ⊆ as ∧ qs ⊆ ps := by simpa [RequestInstantiationSummary.lessEqual] using h
      simp [RequestInstantiationSummary.unionAssign, Finset.union_eq_left.2 hc.1,
        Finset.union_eq_left.2 hc.2]
    · cases h
    · rfl
    · rfl

theorem lawful_determinism :
    LawfulJoin (fun a b : Determinism => decide (a.rank ≤ b.rank)) Determinism.joinAssign
      fun _ _ => True where
  left a b := by cases a <;> cases b <;> rfl
  right a b _ := by cases a <;> cases b <;> rfl
  unchanged a b h := by cases a <;> cases b <;> first | rfl | cases h
  absorbed a b h := by cases a <;> cases b <;> first | rfl | cases h

theorem lawful_independent :
    LawfulJoin EffectSummary.independentLessEqual joinIndependentDeterminism fun _ _ => True where
  left a b := by
    rcases a with _ | a <;> rcases b with _ | b
    · rfl
    · rfl
    · rfl
    · exact lawful_determinism.left a b
  right a b _ := by
    rcases a with _ | a <;> rcases b with _ | b
    · rfl
    · rfl
    · rfl
    · exact lawful_determinism.right a b trivial
  unchanged a b h := by
    rcases a with _ | a <;> rcases b with _ | b
    · rfl
    · rfl
    · cases h
    · exact congrArg some (lawful_determinism.unchanged a b h)
  absorbed a b h := by
    rcases a with _ | a <;> rcases b with _ | b
    · rfl
    · rfl
    · cases h
    · have hj := lawful_determinism.absorbed a b h
      simp [joinIndependentDeterminism, hj]

theorem lawful_support :
    LawfulJoin InterpreterSupport.lessEqual InterpreterSupport.joinAssign fun _ _ => True where
  left a b := by
    cases a <;> cases b <;>
      simp [InterpreterSupport.lessEqual, InterpreterSupport.joinAssign, InterpreterSupport.joined]
  right a b _ := by
    cases a <;> cases b <;>
      simp [InterpreterSupport.lessEqual, InterpreterSupport.joinAssign, InterpreterSupport.joined]
  unchanged a b h := by simpa [InterpreterSupport.joinAssign] using h
  absorbed a b h := by
    have hj : a.joined b = a := by
      unfold InterpreterSupport.lessEqual at h
      split at h
      · next he =>
        subst he
        cases b <;> simp [InterpreterSupport.joined]
      · cases a <;> cases b <;> simp_all [InterpreterSupport.joined]
    simp [InterpreterSupport.joinAssign, hj]

/-! Causes. The escaping row has the members of the direct row and of all produced ones, and the
tail of one of them. -/

/-- `row` has the members of `rows`, and the tail of one of them when they have any. -/
structure EffectRow.Summarizes (row : EffectRow) (rows : List EffectRow) : Prop where
  members : ∀ e, e ∈ row.effects ↔ ∃ r ∈ rows, e ∈ r.effects
  tail : ∀ v, row.openVar = some v → ∃ r ∈ rows, r.openVar = some v
  closed : row.openVar = none → ∀ r ∈ rows, r.openVar = none

namespace EffectRow.Summarizes
variable {row row' : EffectRow} {rows : List EffectRow} {tail : Option EffectVarId}

variable (h : row.Summarizes rows)
include h

theorem le {bound : EffectRow} (hle : ∀ r ∈ rows, rowLessEqual r bound = true) :
    rowLessEqual row bound = true := by
  refine rowLessEqual_iff.2 ⟨fun e he => ?_, fun v hv => ?_⟩
  · obtain ⟨r, hr, her⟩ := (h.members e).1 he
    exact (rowLessEqual_iff.1 (hle r hr)).1 her
  · obtain ⟨r, hr, hrv⟩ := h.tail v hv
    exact (rowLessEqual_iff.1 (hle r hr)).2 v hrv

theorem openVar_eq (hw : ∀ r ∈ rows, r.Within tail) {r : EffectRow} {v : EffectVarId}
    (hr : r ∈ rows) (hv : r.openVar = some v) : row.openVar = some v := by
  have htail : tail = some v := by simpa [Within, hv, eq_comm] using hw r hr
  cases ho : row.openVar with
  | none => simp [h.closed ho r hr] at hv
  | some w =>
    obtain ⟨r', hr', hw'⟩ := h.tail w ho
    simpa [Within, hw', htail] using hw r' hr'

theorem ge (hw : ∀ r ∈ rows, r.Within tail) {r : EffectRow} (hr : r ∈ rows) :
    rowLessEqual r row = true :=
  rowLessEqual_iff.2 ⟨fun e he => (h.members e).2 ⟨r, hr, he⟩, fun _ hv => h.openVar_eq hw hr hv⟩

theorem unique (h' : row'.Summarizes rows) (hw : ∀ r ∈ rows, r.Within tail) : row = row' := by
  have heffects : row.effects = row'.effects := by
    ext e
    rw [h.members, h'.members]
  have hopen : row.openVar = row'.openVar := by
    cases ho : row.openVar with
    | some v =>
      obtain ⟨r, hr, hv⟩ := h.tail v ho
      exact (h'.openVar_eq hw hr hv).symm
    | none =>
      cases ho' : row'.openVar with
      | none => rfl
      | some v =>
        obtain ⟨r, hr, hv⟩ := h'.tail v ho'
        simp [h.closed ho r hr] at hv
  cases row; cases row'
  simp_all

theorem perm {rows' : List EffectRow} (hp : rows.Perm rows') : row.Summarizes rows' where
  members e := by simpa [hp.mem_iff] using h.members e
  tail v hv := by simpa [hp.mem_iff] using h.tail v hv
  closed hc r hr := h.closed hc r (hp.mem_iff.2 hr)

theorem cons_empty : row.Summarizes (.empty :: rows) where
  members e := by simp [EffectRow.empty, h.members e]
  tail v hv := by
    obtain ⟨r, hr, hrv⟩ := h.tail v hv
    exact ⟨r, List.mem_cons_of_mem _ hr, hrv⟩
  closed hc r hr := by
    obtain rfl | hr := List.mem_cons.1 hr
    · rfl
    · exact h.closed hc r hr

theorem map (f : Effect → Effect) : EffectRow.Summarizes { row with effects := row.effects.image f }
      (rows.map fun r => { r with effects := r.effects.image f }) where
  members e := by
    simp only [Finset.mem_image, h.members, List.mem_map]
    constructor
    · rintro ⟨x, ⟨r, hr, hx⟩, rfl⟩
      exact ⟨_, ⟨r, hr, rfl⟩, Finset.mem_image_of_mem f hx⟩
    · rintro ⟨_, ⟨r, hr, rfl⟩, he⟩
      obtain ⟨x, hx, rfl⟩ := Finset.mem_image.1 he
      exact ⟨x, ⟨r, hr, hx⟩, rfl⟩
  tail v hv := by
    obtain ⟨r, hr, hrv⟩ := h.tail v hv
    exact ⟨_, List.mem_map_of_mem hr, hrv⟩
  closed hc r hr := by
    obtain ⟨r', hr', rfl⟩ := List.mem_map.1 hr
    exact h.closed hc r' hr'

end EffectRow.Summarizes

theorem summarizes_foldl (row : EffectRow) (rows : List EffectRow) :
    (rows.foldl (fun r p => (r.unionAssign p).1) row).Summarizes (row :: rows) := by
  induction rows generalizing row with
  | nil => exact ⟨by simp, by simp, by simp⟩
  | cons p rows ih =>
    obtain ⟨hm, ht, hc⟩ := ih (row.unionAssign p).1
    refine ⟨fun e => ?_, fun v hv => ?_, fun hn r hr => ?_⟩
    · rw [List.foldl_cons, hm]
      simp [or_assoc]
    · obtain ⟨r, hr, hrv⟩ := ht v hv
      obtain rfl | hr := List.mem_cons.1 hr
      · rw [EffectRow.unionAssign_openVar, Option.or_eq_some_iff] at hrv
        obtain h | ⟨-, h⟩ := hrv
        · exact ⟨row, by simp, h⟩
        · exact ⟨p, by simp, h⟩
      · exact ⟨r, by simp [hr], hrv⟩
    · have hunion := hc hn _ List.mem_cons_self
      rw [EffectRow.unionAssign_openVar, Option.or_eq_none_iff] at hunion
      simp only [List.mem_cons] at hr
      obtain rfl | rfl | hr := hr
      · exact hunion.1
      · exact hunion.2
      · exact hc hn r (List.mem_cons_of_mem _ hr)

namespace DefaultHandlerEffects

def rows (effects : DefaultHandlerEffects) : List EffectRow :=
  effects.direct :: effects.handlers.map (·.produced)

theorem summarizes_escaping (effects : DefaultHandlerEffects) :
    effects.escaping.Summarizes effects.rows := by
  have h := summarizes_foldl effects.direct (effects.handlers.map (·.produced))
  rwa [List.foldl_map] at h

theorem produced_mem_rows {effects : DefaultHandlerEffects} {h : DefaultHandlerContribution}
    (hh : h ∈ effects.handlers) : h.produced ∈ effects.rows :=
  List.mem_cons_of_mem _ (List.mem_map_of_mem hh)

/-- The causes' part of the order: the escaping rows, the direct ones, and cause by cause. -/
structure Below (a b : DefaultHandlerEffects) : Prop where
  escaping : rowLessEqual a.escaping b.escaping = true
  direct : rowLessEqual a.direct b.direct = true
  handlers : ∀ h ∈ a.handlers, ∃ c ∈ b.handlers,
    c.action = h.action ∧ rowLessEqual h.produced c.produced = true

def joined (D : SummaryData) (a b : DefaultHandlerEffects) : DefaultHandlerEffects :=
  ⟨(a.direct.unionAssign b.direct).1, ((handlerEntries D).recordAll a.handlers b.handlers).1⟩

section joined
variable {a b : DefaultHandlerEffects} {tail : Option EffectVarId}
  (ha : ∀ r ∈ a.rows, r.Within tail) (hb : ∀ r ∈ b.rows, r.Within tail)
include ha hb

theorem within_joined : ∀ r ∈ (joined D a b).rows, r.Within tail := by
  intro r hr
  obtain rfl | hr := List.mem_cons.1 hr
  · exact (ha _ (by simp [rows])).unionAssign (hb _ (by simp [rows]))
  · obtain ⟨h, hh, rfl⟩ := List.mem_map.1 hr
    have hall := Keyed.forall_recordAll (K := handlerEntries D)
      (P := fun h => h.produced.Within tail)
      (fun e n he hn => EffectRow.Within.unionAssign he hn)
      (fun h hh => ha _ (produced_mem_rows hh)) (fun h hh => hb _ (produced_mem_rows hh))
    exact hall h hh

theorem exists_above_joined {h : DefaultHandlerContribution} (hh : h ∈ a.handlers ++ b.handlers) :
    ∃ c ∈ (joined D a b).handlers,
      c.action = h.action ∧ rowLessEqual h.produced c.produced = true := by
  refine Keyed.exists_above_recordAll (K := handlerEntries D)
    (P := fun h => h.produced.Within tail)
    (R := fun h c => c.action = h.action ∧ rowLessEqual h.produced c.produced = true)
    (fun h => ⟨rfl, EffectRow.rowLessEqual_refl _⟩)
    (fun x y z hxy hyz => ⟨hyz.1.trans hxy.1, EffectRow.rowLessEqual_trans hxy.2 hyz.2⟩)
    (fun e n he hn hk => ?_) (fun e n he hn => EffectRow.Within.unionAssign he hn)
    (fun h hh => ha _ (produced_mem_rows hh)) (fun h hh => hb _ (produced_mem_rows hh)) hh
  exact ⟨⟨rfl, EffectRow.lawful_rows.left _ _⟩, hk,
    EffectRow.lawful_rows.right _ _ ⟨tail, he, hn⟩⟩

theorem below_joined : Below a (joined D a b) ∧ Below b (joined D a b) := by
  have hw := within_joined (D := D) ha hb
  have hda : rowLessEqual a.direct (joined D a b).direct = true := EffectRow.lawful_rows.left _ _
  have hdb : rowLessEqual b.direct (joined D a b).direct = true :=
    EffectRow.lawful_rows.right _ _ ⟨tail, ha _ (by simp [rows]), hb _ (by simp [rows])⟩
  have hrow {x : DefaultHandlerEffects} (hx : ∀ h ∈ x.handlers, h ∈ a.handlers ++ b.handlers)
      (hd : rowLessEqual x.direct (joined D a b).direct = true) : Below x (joined D a b) := by
    refine ⟨x.summarizes_escaping.le fun r hr => ?_, hd, fun h hh => exists_above_joined ha hb (hx h hh)⟩
    obtain rfl | hr := List.mem_cons.1 hr
    · exact EffectRow.rowLessEqual_trans hd ((summarizes_escaping _).ge hw (by simp [rows]))
    · obtain ⟨h, hh, rfl⟩ := List.mem_map.1 hr
      obtain ⟨c, hc, -, hle⟩ := exists_above_joined (D := D) ha hb (hx h hh)
      exact EffectRow.rowLessEqual_trans hle
        ((summarizes_escaping _).ge hw (produced_mem_rows hc))
  exact ⟨hrow (fun h hh => List.mem_append_left _ hh) hda,
    hrow (fun h hh => List.mem_append_right _ hh) hdb⟩

end joined
end DefaultHandlerEffects

namespace EffectSummary
open EffectRow (lawful_rows rowLessEqual_refl rowLessEqual_trans)

/-! What every summary of an inference satisfies. -/

/-- The escaping row is one for the causes, and there are no causes without a handler. -/
structure Causal (summary : EffectSummary D) : Prop where
  escaping : ∀ effects, summary.defaultHandlerEffects = some effects →
    summary.escapingEffects.Summarizes effects.rows
  handlers : ∀ effects, summary.defaultHandlerEffects = some effects → effects.handlers ≠ []

/-- The summaries an inference can build. Nothing else in the source sets the escaping row or its
causes; every other field is left free in `rest`. -/
inductive Reachable : EffectSummary D → Prop
  | default : Reachable default
  | task (row : EffectRow) : Reachable { default with escapingEffects := row }
  | rest {s s' : EffectSummary D} : Reachable s →
      s'.defaultHandlerEffects = s.defaultHandlerEffects →
      s'.escapingEffects = s.escapingEffects → Reachable s'
  | recordEscapingEffectRow {s : EffectSummary D} (row : EffectRow) :
      Reachable s → Reachable (s.recordEscapingEffectRow row)
  | recordDefaultHandlerEffects {s s' : EffectSummary D} {action : Effect} {produced : EffectRow} :
      Reachable s → s.recordDefaultHandlerEffects action produced = .ok s' → Reachable s'
  | joinEscapingEffects {s s' : EffectSummary D} :
      Reachable s → Reachable s' → Reachable (s.joinEscapingEffects s').1
  | subtractHandledEffects {s : EffectSummary D} (coverage : EffectCoverage) (handled : EffectRow) :
      Reachable s → Reachable (s.subtractHandledEffects coverage handled)
  | removeEscapingEffect {s : EffectSummary D} (effect : Effect) :
      Reachable s → Reachable (s.removeEscapingEffect effect)
  | mergeRequestedCauses {s s' : EffectSummary D} :
      Reachable s → Reachable s' → Reachable (s.mergeRequestedCauses s')
  | mapEscaping {s s' : EffectSummary D} {effect : Effect → Option Effect}
      {row : EffectRow → Option EffectRow} :
      Reachable s → s.mapEscaping effect row = some s' → Reachable s'
  | relocateEscaping {s : EffectSummary D} (effect : Effect → Effect) :
      Reachable s → Reachable (s.relocateEscaping effect)

variable {s : EffectSummary D}

theorem Causal.of_none (h : s.defaultHandlerEffects = none) : Causal s :=
  ⟨fun effects he => by simp [h] at he, fun effects he => by simp [h] at he⟩

theorem Causal.refreshed {effects : DefaultHandlerEffects} (h : effects.handlers ≠ []) :
    Causal { s with defaultHandlerEffects := some effects }.refreshEscapingEffects :=
  ⟨fun _ he => Option.some.inj he ▸ effects.summarizes_escaping, fun _ he => Option.some.inj he ▸ h⟩

theorem summarizes_recordAll_empty {row direct : EffectRow}
    {handlers news : List DefaultHandlerContribution}
    (h : row.Summarizes (DefaultHandlerEffects.rows ⟨direct, handlers⟩))
    (hn : ∀ n ∈ news, n.produced = .empty) :
    row.Summarizes
      (DefaultHandlerEffects.rows ⟨direct, ((handlerEntries D).recordAll handlers news).1⟩) := by
  induction news generalizing handlers with
  | nil => exact h
  | cons n rest ih =>
    refine ih ?_ fun m hm => hn m (List.mem_cons_of_mem _ hm)
    have hempty := hn n List.mem_cons_self
    obtain ⟨front, e, back, rfl, -, -, hr⟩ | ⟨-, hp, -⟩ :=
      Keyed.record_cases (handlerEntries D) handlers n
    · have hsame : (e.produced.unionAssign n.produced).1 = e.produced := by
        rw [lawful_rows.absorbed _ _ (by simp [hempty, rowLessEqual, EffectRow.empty])]
      rw [hr]
      simpa [handlerEntries, DefaultHandlerEffects.rows, hsame] using h
    · refine h.cons_empty.perm ?_
      have hrows := (hp.map (·.produced)).symm
      rw [List.map_cons, hempty] at hrows
      exact (List.Perm.swap _ _ _).trans (hrows.cons direct)

theorem Causal.summarizes (h : Causal s) : s.escapingEffects.Summarizes s.causes.rows := by
  unfold causes
  cases hd : s.defaultHandlerEffects with
  | none => exact ⟨by simp [DefaultHandlerEffects.rows], by simp [DefaultHandlerEffects.rows],
      by simp [DefaultHandlerEffects.rows]⟩
  | some effects => exact h.escaping effects hd

theorem Reachable.causal (h : Reachable s) : Causal s := by
  induction h with
  | default => exact .of_none rfl
  | task row => exact .of_none rfl
  | rest _ hd he ih =>
    refine ⟨fun effects h => ?_, fun effects h => ih.handlers effects (hd ▸ h)⟩
    exact he ▸ ih.escaping effects (hd ▸ h)
  | recordEscapingEffectRow row _ ih =>
    unfold EffectSummary.recordEscapingEffectRow
    split
    · next effects hd => exact .refreshed (ih.handlers effects hd)
    · next hd => exact .of_none hd
  | recordDefaultHandlerEffects _ hr ih =>
    unfold EffectSummary.recordDefaultHandlerEffects at hr
    split at hr
    · cases hr
    · cases hr
      exact .refreshed (Keyed.record_ne_nil _ _ _)
  | @joinEscapingEffects s s' _ _ ih ih' =>
    unfold EffectSummary.joinEscapingEffects
    split
    · next hn => exact .of_none (by simpa using (Bool.and_eq_true_iff.1 hn).1)
    · next hn =>
      refine .refreshed (Keyed.recordAll_ne_nil _ ?_)
      cases hd : s.defaultHandlerEffects with
      | some effects => exact .inl (by simpa [causes, hd] using ih.handlers effects hd)
      | none =>
        cases hd' : s'.defaultHandlerEffects with
        | some effects => exact .inr (by simpa using ih'.handlers effects hd')
        | none => simp [hd, hd'] at hn
  | @subtractHandledEffects s coverage handled _ ih =>
    unfold EffectSummary.subtractHandledEffects
    dsimp only
    split
    · split
      · exact .of_none rfl
      · next hne =>
        refine @Causal.refreshed D { s with
          handlerRequests := s.handlerRequests.subtractHandled coverage handled } _ ?_
        simpa using hne
    · next hd => exact .of_none hd
  | removeEscapingEffect effect _ ih =>
    unfold EffectSummary.removeEscapingEffect
    split
    · next effects hd => exact .refreshed (by simpa using ih.handlers effects hd)
    · next hd => exact .of_none hd
  | mergeRequestedCauses _ _ ih _ =>
    unfold EffectSummary.mergeRequestedCauses
    split
    · exact ih
    · refine ⟨fun effects he => ?_, fun effects he => ?_⟩
      · cases he
        exact summarizes_recordAll_empty ih.summarizes (by simp)
      · cases he
        exact Keyed.recordAll_ne_nil _ (.inr (by simp))
  | @mapEscaping s _ effect row _ hm ih =>
    obtain ⟨escaping, -, hm⟩ := Option.bind_eq_some_iff.1 hm
    cases hd : s.defaultHandlerEffects with
    | none =>
      rw [hd] at hm
      cases hm
      exact .of_none rfl
    | some effects =>
      rw [hd] at hm
      obtain ⟨direct, -, hm⟩ := Option.bind_eq_some_iff.1 hm
      obtain ⟨handlers, hhandlers, hm⟩ := Option.bind_eq_some_iff.1 hm
      cases hm
      refine .refreshed ?_
      rintro rfl
      cases hh : effects.handlers with
      | nil => exact ih.handlers effects hd hh
      | cons h rest =>
        rw [hh, List.mapM_cons] at hhandlers
        obtain ⟨_, -, hhandlers⟩ := Option.bind_eq_some_iff.1 hhandlers
        obtain ⟨_, -, hhandlers⟩ := Option.bind_eq_some_iff.1 hhandlers
        cases hhandlers
  | relocateEscaping effect _ ih =>
    refine ⟨fun effects he => ?_, fun effects he => ?_⟩
    · obtain ⟨old, hold, rfl⟩ := Option.map_eq_some_iff.1 he
      have hmap := (ih.escaping old hold).map effect
      simpa [DefaultHandlerEffects.rows, EffectSummary.relocateEscaping, Function.comp_def] using hmap
    · obtain ⟨old, hold, rfl⟩ := Option.map_eq_some_iff.1 he
      simpa using ih.handlers old hold

/-! The order, apart from the trace and the exits. -/

/-- All that `lessEqual` compares by inclusion: everything but the trace and the exits. -/
structure Below (a b : EffectSummary D) : Prop where
  requests : a.handlerRequests.lessEqual b.handlerRequests = true
  escaping : rowLessEqual a.escapingEffects b.escapingEffects = true
  direct : rowLessEqual a.directEscapingEffects b.directEscapingEffects = true
  handlers : handlersLessEqual a.defaultHandlerEffects b.defaultHandlerEffects = true
  requested : rowLessEqual a.requestedActions b.requestedActions = true
  defaults : rowLessEqual a.defaultActions b.defaultActions = true
  handled : rowLessEqual a.handledActions b.handledActions = true
  residual : decide (a.residualChecks ⊆ b.residualChecks) = true
  obligations : decide (a.traceSpecObligations ⊆ b.traceSpecObligations) = true
  requirements : decide (a.requirements ⊆ b.requirements) = true
  determinism : decide (a.determinism.rank ≤ b.determinism.rank) = true
  independent : independentLessEqual a.independentDeterminism b.independentDeterminism = true
  support : a.support.lessEqual b.support = true

/-- No two rows that the join unites have different tails. -/
structure TailsAgree (a b : EffectSummary D) : Prop where
  escaping : ∃ tail, (∀ r ∈ a.causes.rows, r.Within tail) ∧ ∀ r ∈ b.causes.rows, r.Within tail
  requested : a.requestedActions.TailsAgree b.requestedActions
  defaults : a.defaultActions.TailsAgree b.defaultActions
  handled : a.handledActions.TailsAgree b.handledActions

variable {a b : EffectSummary D}

theorem lessEqual_iff :
    a.lessEqual b = true ↔
      exitsLessEqual a.exits b.exits = true ∧
        traceLessEqual a.actionTrace b.actionTrace = true ∧ Below a b := by
  simp only [lessEqual, Bool.and_eq_true]
  constructor
  · rintro ⟨⟨⟨⟨⟨⟨⟨⟨⟨⟨⟨⟨⟨⟨h, h₁⟩, h₂⟩, h₃⟩, h₄⟩, h₅⟩, h₆⟩, h₇⟩, h₈⟩, h₉⟩, h₁₀⟩, h₁₁⟩, h₁₂⟩, h₁₃⟩, h₁₄⟩
    exact ⟨h, h₈, h₁, h₂, h₃, h₄, h₅, h₆, h₇, h₉, h₁₀, h₁₁, h₁₂, h₁₃, h₁₄⟩
  · rintro ⟨h, h₈, h₁, h₂, h₃, h₄, h₅, h₆, h₇, h₉, h₁₀, h₁₁, h₁₂, h₁₃, h₁₄⟩
    exact ⟨⟨⟨⟨⟨⟨⟨⟨⟨⟨⟨⟨⟨⟨h, h₁⟩, h₂⟩, h₃⟩, h₄⟩, h₅⟩, h₆⟩, h₇⟩, h₈⟩, h₉⟩, h₁₀⟩, h₁₁⟩, h₁₂⟩, h₁₃⟩, h₁₄⟩

theorem directEscapingEffects_eq (s : EffectSummary D) :
    s.directEscapingEffects = s.causes.direct := by
  unfold directEscapingEffects causes
  cases s.defaultHandlerEffects <;> rfl

theorem handlers_eq (s : EffectSummary D) :
    (s.defaultHandlerEffects.map DefaultHandlerEffects.handlers).getD [] = s.causes.handlers := by
  unfold causes
  cases s.defaultHandlerEffects <;> rfl

theorem handlersLessEqual_iff :
    handlersLessEqual a.defaultHandlerEffects b.defaultHandlerEffects = true ↔
      ∀ h ∈ a.causes.handlers, ∃ c ∈ b.causes.handlers,
        c.action = h.action ∧ rowLessEqual h.produced c.produced = true := by
  unfold causes handlersLessEqual
  cases a.defaultHandlerEffects with
  | none => simp
  | some effects => cases b.defaultHandlerEffects <;> simp

theorem Below.refl (a : EffectSummary D) : Below a a where
  requests := by cases h : a.handlerRequests <;> simp [RequestInstantiationSummary.lessEqual]
  escaping := rowLessEqual_refl _
  direct := rowLessEqual_refl _
  handlers := handlersLessEqual_iff.2 fun h hh => ⟨h, hh, rfl, rowLessEqual_refl _⟩
  requested := rowLessEqual_refl _
  defaults := rowLessEqual_refl _
  handled := rowLessEqual_refl _
  residual := by simp
  obligations := by simp
  requirements := by simp
  determinism := by simp
  independent := by cases h : a.independentDeterminism <;> simp [independentLessEqual]
  support := by simp [InterpreterSupport.lessEqual]

theorem default_below (a : EffectSummary D) : Below default a where
  requests := by cases h : a.handlerRequests <;> simp [RequestInstantiationSummary.lessEqual, default]
  escaping := by simp [rowLessEqual, default, EffectRow.empty]
  direct := by simp [rowLessEqual, default, EffectRow.empty, directEscapingEffects]
  handlers := rfl
  requested := by simp [rowLessEqual, default, EffectRow.empty]
  defaults := by simp [rowLessEqual, default, EffectRow.empty]
  handled := by simp [rowLessEqual, default, EffectRow.empty]
  residual := by simp [default]
  obligations := by simp [default]
  requirements := by simp [default]
  determinism := by simp [default, Determinism.rank]
  independent := by
    cases h : a.independentDeterminism <;> simp [independentLessEqual, default, Determinism.rank]
  support := by cases h : a.support <;> simp [InterpreterSupport.lessEqual, default]

/-! The escaping part of the join. -/

theorem joinEscapingEffects_eq (a b : EffectSummary D) :
    (a.joinEscapingEffects b).1.causes = .joined D a.causes b.causes ∧
      (a.joinEscapingEffects b).1.escapingEffects =
        (DefaultHandlerEffects.joined D a.causes b.causes).escaping := by
  unfold joinEscapingEffects
  split
  · next hn =>
    obtain ⟨ha, hb⟩ := Bool.and_eq_true_iff.1 hn
    rw [Option.isNone_iff_eq_none] at ha hb
    simp only [causes, ha, hb]
    exact ⟨rfl, rfl⟩
  · rw [directEscapingEffects_eq, handlers_eq]
    exact ⟨rfl, rfl⟩

theorem Causal.escaping_eq (h : Causal s) (hw : ∀ r ∈ s.causes.rows, r.Within tail) :
    s.escapingEffects = s.causes.escaping :=
  h.summarizes.unique s.causes.summarizes_escaping hw

theorem joinEscapingEffects_unchanged (ha : Causal a) (hw : ∀ r ∈ a.causes.rows, r.Within tail)
    (h : (a.joinEscapingEffects b).2 = false) :
    (a.joinEscapingEffects b).1 = a := by
  have hescaping := ha.escaping_eq hw
  unfold joinEscapingEffects at h ⊢
  split at h
  · next hn =>
    rw [if_pos hn]
    simp only [lawful_rows.unchanged _ _ h]
  · next hn =>
    rw [if_neg hn]
    simp only [Bool.or_eq_false_iff] at h
    obtain ⟨⟨hsome, hdirect⟩, hhandlers⟩ := h
    obtain ⟨effects, hd⟩ : ∃ effects, a.defaultHandlerEffects = some effects :=
      Option.isSome_iff_exists.1 (by simpa using hsome)
    have hentries := Keyed.recordAll_unchanged (K := handlerEntries D)
      (fun e n hj => by simp only [handlerEntries, lawful_rows.unchanged _ _ hj]) hhandlers
    have hcauses : a.causes = effects := by simp [causes, hd]
    simp only [refreshEscapingEffects, lawful_rows.unchanged _ _ hdirect, hentries]
    rw [hcauses] at hescaping ⊢
    rw [← hescaping, ← hd]

theorem joinEscapingEffects_absorbed (hb : Causal b)
    (hkeys : (a.causes.handlers.map (·.action)).Nodup)
    (hdirect : rowLessEqual b.directEscapingEffects a.directEscapingEffects = true)
    (hhandlers : handlersLessEqual b.defaultHandlerEffects a.defaultHandlerEffects = true) :
    (a.joinEscapingEffects b).2 = false := by
  unfold joinEscapingEffects
  split
  · next hn =>
    obtain ⟨hna, hnb⟩ := Bool.and_eq_true_iff.1 hn
    rw [Option.isNone_iff_eq_none] at hna hnb
    simp only [directEscapingEffects, hna, hnb] at hdirect
    simp only [lawful_rows.absorbed _ _ hdirect]
  · next hn =>
    rw [handlersLessEqual_iff] at hhandlers
    rw [directEscapingEffects_eq, directEscapingEffects_eq] at hdirect
    have hsome : a.defaultHandlerEffects.isNone = false := by
      cases hd : a.defaultHandlerEffects with
      | some effects => rfl
      | none =>
        cases hd' : b.defaultHandlerEffects with
        | none => simp [hd, hd'] at hn
        | some effects =>
          obtain ⟨h, hh⟩ := List.exists_mem_of_ne_nil _ (hb.handlers effects hd')
          obtain ⟨c, hc, -⟩ := hhandlers h (by simpa [causes, hd'] using hh)
          simp [causes, hd] at hc
    have hentries : (handlerEntries D).recordAll a.causes.handlers b.causes.handlers =
        (a.causes.handlers, false) := by
      refine Keyed.recordAll_absorbed hkeys fun n hnm => ?_
      obtain ⟨c, hc, hk, hle⟩ := hhandlers n hnm
      exact ⟨c, hc, hk, by simp only [handlerEntries, lawful_rows.absorbed _ _ hle]⟩
    simp only [directEscapingEffects_eq, handlers_eq, lawful_rows.absorbed _ _ hdirect,
      hentries, hsome, Bool.or_self]

theorem below_joinBranch (ha : Causal a) (hb : Causal b) (ht : TailsAgree a b) :
    Below a (a.joinBranch b).1 ∧ Below b (a.joinBranch b).1 := by
  obtain ⟨tail, hwa, hwb⟩ := ht.escaping
  obtain ⟨hcauses, hescaping⟩ := joinEscapingEffects_eq a b
  obtain ⟨hba, hbb⟩ := DefaultHandlerEffects.below_joined (D := D) hwa hwb
  have hcauses' : (a.joinBranch b).1.causes = .joined D a.causes b.causes := hcauses
  have hescaping' : (a.joinBranch b).1.escapingEffects =
      (DefaultHandlerEffects.joined D a.causes b.causes).escaping := hescaping
  constructor
  · refine ⟨lawful_requests.left _ _, ?_, ?_, ?_, lawful_rows.left _ _,
      lawful_rows.left _ _, lawful_rows.left _ _, lawful_sets.left _ _,
      lawful_sets.left _ _, lawful_sets.left _ _, lawful_determinism.left _ _,
      lawful_independent.left _ _, lawful_support.left _ _⟩
    · rw [hescaping', ha.escaping_eq hwa]
      exact hba.escaping
    · rw [directEscapingEffects_eq, directEscapingEffects_eq, hcauses']
      exact hba.direct
    · rw [handlersLessEqual_iff, hcauses']
      exact hba.handlers
  · refine ⟨lawful_requests.right _ _ trivial, ?_, ?_, ?_, lawful_rows.right _ _ ht.requested,
      lawful_rows.right _ _ ht.defaults, lawful_rows.right _ _ ht.handled,
      lawful_sets.right _ _ trivial, lawful_sets.right _ _ trivial, lawful_sets.right _ _ trivial,
      lawful_determinism.right _ _ trivial, lawful_independent.right _ _ trivial,
      lawful_support.right _ _ trivial⟩
    · rw [hescaping', hb.escaping_eq hwb]
      exact hbb.escaping
    · rw [directEscapingEffects_eq, directEscapingEffects_eq, hcauses']
      exact hbb.direct
    · rw [handlersLessEqual_iff, hcauses']
      exact hbb.handlers

theorem choiceAssign_unchanged {a b : ActionTraceDomain}
    (h : (a.choiceAssign D.debug b).2 = false) : (a.choiceAssign D.debug b).1 = a :=
  bne_eq_false_iff_eq.1 h

theorem joinHandlerFree_unchanged {a b : Option Bool} (h : (joinHandlerFree a b).2 = false) :
    (joinHandlerFree a b).1 = a := by
  unfold joinHandlerFree at h ⊢
  split at h
  · cases h
  · next hc => rw [if_neg hc]

theorem joinEnclosingHandled_unchanged {a b : Option EffectRow}
    (h : (joinEnclosingHandled a b).2 = false) : (joinEnclosingHandled a b).1 = a := by
  rcases a with _ | a <;> rcases b with _ | b
  · rfl
  · rfl
  · cases h
  · unfold joinEnclosingHandled at h ⊢
    dsimp only at h ⊢
    split at h
    · cases h
    · next hc =>
      rw [if_neg hc]
      exact congrArg some (lawful_rows.unchanged _ _ h)

theorem joinExits_unchanged {a b : Option (CallableExitSummary D)} (h : (joinExits a b).2 = false) :
    (joinExits a b).1 = a := by
  rcases a with _ | a <;> rcases b with _ | b
  · rfl
  · cases h
  · rfl
  · have hc : (a.joinAssign b).2 = false := h
    simp only [CallableExitSummary.joinAssign, Bool.or_eq_false_iff] at hc
    obtain ⟨⟨⟨he, hp⟩, hg⟩, hgaps⟩ := hc
    have hexits := Keyed.recordAll_unchanged (K := exitEntries D)
      (fun e n hj => by simp only [exitEntries, choiceAssign_unchanged hj]) he
    have hparams := Keyed.recordAll_unchanged (K := parameterExitEntries D) (fun e n hj => by
      simp only [parameterExitEntries, Bool.or_eq_false_iff] at hj ⊢
      rw [choiceAssign_unchanged hj.1.1, joinHandlerFree_unchanged hj.1.2,
        joinEnclosingHandled_unchanged hj.2]) hp
    refine congrArg some ?_
    simp only [hexits, hparams, Finset.union_eq_left.2 (unionAssign_flag.1 hg),
      Finset.union_eq_left.2 (unionAssign_flag.1 hgaps)]

theorem joinBranch_unchanged (ha : Causal a) (ht : TailsAgree a b)
    (h : (a.joinBranch b).2 = false) : (a.joinBranch b).1 = a := by
  obtain ⟨tail, hwa, -⟩ := ht.escaping
  simp only [joinBranch, Bool.or_eq_false_iff] at h ⊢
  obtain ⟨⟨⟨⟨⟨⟨⟨⟨⟨⟨⟨⟨h₁, h₂⟩, h₃⟩, h₄⟩, h₅⟩, h₆⟩, h₇⟩, h₈⟩, h₉⟩, h₁₀⟩, h₁₁⟩, h₁₂⟩, h₁₃⟩ := h
  rw [joinEscapingEffects_unchanged ha hwa h₂, joinExits_unchanged h₁,
    lawful_requests.unchanged _ _ h₃, lawful_rows.unchanged _ _ h₄,
    lawful_rows.unchanged _ _ h₅, lawful_rows.unchanged _ _ h₆,
    choiceAssign_unchanged h₇, lawful_sets.unchanged _ _ h₈, lawful_sets.unchanged _ _ h₉,
    lawful_sets.unchanged _ _ h₁₀, lawful_determinism.unchanged _ _ h₁₁,
    lawful_independent.unchanged _ _ h₁₂, lawful_support.unchanged _ _ h₁₃]

theorem joinBranch_flag (ha : Causal a) (hb : Causal b) (ht : TailsAgree a b)
    (hkeys : (a.causes.handlers.map (·.action)).Nodup) :
    (a.joinBranch b).2 = false ↔
      Below b a ∧ (ActionTraceDomain.choiceTrace D.debug a.actionTrace b.actionTrace) = a.actionTrace ∧
        (joinExits a.exits b.exits).2 = false := by
  constructor
  · intro h
    have hbelow := (below_joinBranch ha hb ht).2
    rw [joinBranch_unchanged ha ht h] at hbelow
    simp only [joinBranch, Bool.or_eq_false_iff] at h
    obtain ⟨⟨⟨⟨⟨⟨⟨⟨⟨⟨⟨⟨h₁, -⟩, -⟩, -⟩, -⟩, -⟩, h₇⟩, -⟩, -⟩, -⟩, -⟩, -⟩, -⟩ := h
    exact ⟨hbelow, choiceAssign_unchanged h₇, h₁⟩
  · rintro ⟨hbelow, htrace, hexits⟩
    have htrace' : (a.actionTrace.choiceAssign D.debug b.actionTrace).2 = false := by
      simpa [ActionTraceDomain.choiceAssign] using htrace
    simp only [joinBranch, hexits, htrace',
      joinEscapingEffects_absorbed hb hkeys hbelow.direct hbelow.handlers,
      lawful_requests.absorbed _ _ hbelow.requests,
      lawful_rows.absorbed _ _ hbelow.requested,
      lawful_rows.absorbed _ _ hbelow.defaults,
      lawful_rows.absorbed _ _ hbelow.handled,
      lawful_sets.absorbed _ _ hbelow.residual, lawful_sets.absorbed _ _ hbelow.obligations,
      lawful_sets.absorbed _ _ hbelow.requirements,
      lawful_determinism.absorbed _ _ hbelow.determinism,
      lawful_independent.absorbed _ _ hbelow.independent,
      lawful_support.absorbed _ _ hbelow.support, Bool.or_self]

/-! A summary joined with itself. -/

/-- Each cause and each exit occurs once. -/
structure Distinct (s : EffectSummary D) : Prop where
  handlers : (s.causes.handlers.map (·.action)).Nodup
  exits : ∀ e, s.exits = some e → (e.exits.map (·.outcome)).Nodup ∧
    (e.parameterExits.map (·.site)).Nodup

/-- The summary with every trace that needs it widened. -/
def widened (s : EffectSummary D) : EffectSummary D :=
  { s with
    actionTrace := s.actionTrace.widenIfNeeded
    exits := s.exits.map fun e =>
      { e with
        exits := e.exits.map fun x => { x with trace := x.trace.widenIfNeeded }
        parameterExits := e.parameterExits.map fun x => { x with before := x.before.widenIfNeeded } } }

theorem choiceTrace_self (debug : ActionTraceDomain → String) (t : ActionTraceDomain) :
    ActionTraceDomain.choiceTrace debug t t = t.widenIfNeeded := by
  simp [ActionTraceDomain.choiceTrace]

theorem exitEntries_join_self (x : ExitTraceFact D) :
    (exitEntries D).join x x = ({ x with trace := x.trace.widenIfNeeded },
      x.trace.widenIfNeeded != x.trace) := by
  simp [exitEntries, ActionTraceDomain.choiceAssign, choiceTrace_self]

theorem parameterExitEntries_join_self (x : ParameterExitFact D) :
    (parameterExitEntries D).join x x = ({ x with before := x.before.widenIfNeeded },
      x.before.widenIfNeeded != x.before) := by
  have hfree : joinHandlerFree x.handlerFree x.handlerFree = (x.handlerFree, false) := by
    simp [joinHandlerFree]
  have hhandled : joinEnclosingHandled x.enclosingHandled x.enclosingHandled =
      (x.enclosingHandled, false) := by
    cases h : x.enclosingHandled with
    | none => rfl
    | some row =>
      simp [joinEnclosingHandled,
        lawful_rows.absorbed _ _ (rowLessEqual_refl row)]
  simp [parameterExitEntries, ActionTraceDomain.choiceAssign, choiceTrace_self, hfree, hhandled]

theorem joinExits_self (h : Distinct s) :
    (joinExits s.exits s.exits).1 = s.widened.exits ∧
      ((joinExits s.exits s.exits).2 = false ↔ s.widened.exits = s.exits) := by
  cases he : s.exits with
  | none => simp [joinExits, widened, he]
  | some e =>
    obtain ⟨hexits, hparams⟩ := h.exits e he
    have h₁ := Keyed.recordAll_self (K := exitEntries D) (fun _ _ => rfl) hexits
    have h₂ := Keyed.recordAll_self (K := parameterExitEntries D) (fun _ _ => rfl) hparams
    simp only [exitEntries_join_self] at h₁
    simp only [parameterExitEntries_join_self] at h₂
    have hjoin : (joinExits (some e) (some e)).1 = s.widened.exits := by
      simp [joinExits, CallableExitSummary.joinAssign, h₁, h₂, widened, he, unionAssign]
    refine ⟨hjoin, fun hc => hjoin ▸ joinExits_unchanged hc, fun hsame => ?_⟩
    simp only [widened, he, Option.map_some, Option.some.injEq] at hsame
    have htraces : ∀ x ∈ e.exits, x.trace.widenIfNeeded = x.trace := by
      have hmap := (congrArg CallableExitSummary.exits hsame).trans (List.map_id _).symm
      exact fun x hx => congrArg ExitTraceFact.trace (List.map_inj_left.1 hmap x hx)
    have hbefores : ∀ x ∈ e.parameterExits, x.before.widenIfNeeded = x.before := by
      have hmap := (congrArg CallableExitSummary.parameterExits hsame).trans (List.map_id _).symm
      exact fun x hx => congrArg ParameterExitFact.before (List.map_inj_left.1 hmap x hx)
    have hany₁ : (e.exits.any fun x => x.trace.widenIfNeeded != x.trace) = false := by
      simpa using htraces
    have hany₂ : (e.parameterExits.any fun x => x.before.widenIfNeeded != x.before) = false := by
      simpa using hbefores
    simp [joinExits, CallableExitSummary.joinAssign, h₁, h₂, hany₁, hany₂, unionAssign]

theorem joinBranch_self (hs : Causal s) (hd : Distinct s) (ht : TailsAgree s s) :
    (s.joinBranch s).1 = s.widened ∧ ((s.joinBranch s).2 = false ↔ s.widened = s) := by
  obtain ⟨tail, hw, -⟩ := ht.escaping
  obtain ⟨hexits, hflag⟩ := joinExits_self hd
  have hr := Below.refl s
  have hescaping := joinEscapingEffects_unchanged hs hw
    (joinEscapingEffects_absorbed hs hd.handlers hr.direct hr.handlers)
  have hjoin : (s.joinBranch s).1 = s.widened := by
    simp only [joinBranch, hexits, hescaping, lawful_requests.absorbed _ _ hr.requests,
      lawful_rows.absorbed _ _ (rowLessEqual_refl _),
      lawful_sets.absorbed _ _ hr.residual, lawful_sets.absorbed _ _ hr.obligations,
      lawful_sets.absorbed _ _ hr.requirements, lawful_determinism.absorbed _ _ hr.determinism,
      lawful_independent.absorbed _ _ hr.independent, lawful_support.absorbed _ _ hr.support,
      ActionTraceDomain.choiceAssign, choiceTrace_self]
    rfl
  refine ⟨hjoin, fun hc => hjoin ▸ joinBranch_unchanged hs ht hc, fun hsame => ?_⟩
  rw [joinBranch_flag hs hs ht hd.handlers, choiceTrace_self]
  exact ⟨hr, congrArg actionTrace hsame, hflag.2 (congrArg exits hsame)⟩

/-- What the flat part of the order asks: the same exits or none, the same trace or the empty one. -/
def SameTraces (a b : EffectSummary D) : Prop :=
  (a.exits = none ∨ a.exits = b.exits) ∧ (a.actionTrace = .empty ∨ a.actionTrace = b.actionTrace)

theorem lessEqual_iff_sameTraces (h : Below a b) : a.lessEqual b = true ↔ SameTraces a b := by
  rw [lessEqual_iff]
  simp only [exitsLessEqual, traceLessEqual, Bool.or_eq_true, Option.isNone_iff_eq_none,
    beq_iff_eq, h, and_true, SameTraces, or_comm]

theorem joinAssign_below (ha : Causal a) (hb : Causal b) (ht : TailsAgree a b) :
    Below a (a.joinAssign b).1 ∧ Below b (a.joinAssign b).1 := by
  unfold joinAssign
  split
  · next h => exact ⟨h ▸ default_below b, Below.refl b⟩
  · split
    · next h => exact ⟨Below.refl a, h ▸ default_below a⟩
    · exact below_joinBranch ha hb ht

theorem joinAssign_unchanged (ha : Causal a) (ht : TailsAgree a b)
    (h : (a.joinAssign b).2 = false) : (a.joinAssign b).1 = a := by
  unfold joinAssign at h ⊢
  split at h
  · next hd =>
    rw [if_pos hd]
    exact (bne_eq_false_iff_eq.1 h).symm
  · next hd =>
    rw [if_neg hd]
    split at h
    · next hd' => rw [if_pos hd']
    · next hd' =>
      rw [if_neg hd']
      exact joinBranch_unchanged ha ht h

theorem joinAssign_flag (ha : Causal a) (hb : Causal b) (ht : TailsAgree a b)
    (hkeys : (a.causes.handlers.map (·.action)).Nodup) :
    (a.joinAssign b).2 = false ↔
      b = default ∨ a ≠ default ∧ Below b a ∧
        ActionTraceDomain.choiceTrace D.debug a.actionTrace b.actionTrace = a.actionTrace ∧
          (joinExits a.exits b.exits).2 = false := by
  unfold joinAssign
  by_cases hda : a = default
  · rw [if_pos hda]
    simp only [hda, ne_eq, not_true_eq_false, false_and, or_false, bne_eq_false_iff_eq]
    exact eq_comm
  · rw [if_neg hda]
    by_cases hdb : b = default
    · simp [hdb]
    · rw [if_neg hdb, joinBranch_flag ha hb ht hkeys]
      simp [hda, hdb]

theorem lang_joinAssign (a b : EffectSummary D) :
    (a.actionTrace = .empty ∨ a.actionTrace.lang ≤ (a.joinAssign b).1.actionTrace.lang) ∧
      (b.actionTrace = .empty ∨ b.actionTrace.lang ≤ (a.joinAssign b).1.actionTrace.lang) := by
  unfold joinAssign
  split
  · next h => exact ⟨.inl (h ▸ rfl), .inr le_rfl⟩
  · split
    · next h => exact ⟨.inr le_rfl, .inl (h ▸ rfl)⟩
    · have h := (ActionTraceDomain.approximates_choiceTrace a.actionTrace b.actionTrace D.debug).lang
      exact ⟨.inr ((le_add_of_nonneg_right bot_le).trans h), .inr ((le_add_of_nonneg_left bot_le).trans h)⟩

theorem joinAssign_self (hs : Causal s) (hd : Distinct s) (ht : TailsAgree s s) :
    (s.joinAssign s).1 = s.widened ∧ ((s.joinAssign s).2 = false ↔ s.widened = s) := by
  by_cases h : s = default
  · subst h
    have hw : (default : EffectSummary D).widened = default := rfl
    simp [joinAssign, hw]
  · simpa [joinAssign, h] using joinBranch_self hs hd ht

/-- The join of two summaries of an inference, none of whose united rows have different tails, is
above both in all that the order compares by inclusion. The order holds of either summary and the
join exactly when its trace and its exits are the join's, or empty; a nonempty trace is kept in
the language of the joined one. The flag is that of a change, and it is unset exactly when the
second summary is the bottom, or below the first with a trace and exits that the first absorbs.
A summary joined with itself is itself with its traces widened. -/
theorem joinAssign_bounds {a b : EffectSummary D} (ha : Reachable a) (hb : Reachable b)
    (ht : TailsAgree a b) :
    (Below a (a.joinAssign b).1 ∧ Below b (a.joinAssign b).1) ∧
    ((a.lessEqual (a.joinAssign b).1 = true ↔ SameTraces a (a.joinAssign b).1) ∧
      (b.lessEqual (a.joinAssign b).1 = true ↔ SameTraces b (a.joinAssign b).1)) ∧
    ((a.actionTrace = .empty ∨ a.actionTrace.lang ≤ (a.joinAssign b).1.actionTrace.lang) ∧
      (b.actionTrace = .empty ∨ b.actionTrace.lang ≤ (a.joinAssign b).1.actionTrace.lang)) ∧
    ((a.joinAssign b).2 = false → (a.joinAssign b).1 = a) ∧
    (Distinct a →
      ((a.joinAssign b).2 = false ↔
        b = default ∨ a ≠ default ∧ Below b a ∧
          ActionTraceDomain.choiceTrace D.debug a.actionTrace b.actionTrace = a.actionTrace ∧
            (joinExits a.exits b.exits).2 = false) ∧
      (a.joinAssign a).1 = a.widened ∧ ((a.joinAssign a).2 = false ↔ a.widened = a)) := by
  have hbelow := joinAssign_below ha.causal hb.causal ht
  obtain ⟨tail, hwa, -⟩ := ht.escaping
  refine ⟨hbelow, ⟨lessEqual_iff_sameTraces hbelow.1, lessEqual_iff_sameTraces hbelow.2⟩,
    lang_joinAssign a b, joinAssign_unchanged ha.causal ht, fun hd => ⟨?_, ?_⟩⟩
  · exact joinAssign_flag ha.causal hb.causal ht hd.handlers
  · exact joinAssign_self ha.causal hd ⟨⟨tail, hwa, hwa⟩, ⟨_, .inr rfl, .inr rfl⟩,
      ⟨_, .inr rfl, .inr rfl⟩, ⟨_, .inr rfl, .inr rfl⟩⟩

section sample

/-- Numbers for the data that is only compared; events print by their position. -/
def sampleData : SummaryData where
  Outcome := ℕ
  ExitSite := ℕ
  Gap := ℕ
  HandlerGap := ℕ
  RequestSignature := ℕ
  ResidualRef := ℕ
  RequirementFact := ℕ
  outcomeLe a b := decide (a ≤ b)
  exitSiteLe a b := decide (a ≤ b)
  effectLe _ _ := true
  debug
    | .event e => if e.span.start = 0 then "Event 0" else "Event 1"
    | _ => "Empty"

/-- The summary of a body that performs one action, at `start`. -/
def performed (start : ℕ) : EffectSummary sampleData :=
  { default with
    actionTrace := .event ⟨.action ⟨0, 0⟩, ⟨0, start, start + 1⟩, .perform⟩ }

theorem performed_reachable (start : ℕ) : Reachable (performed start) :=
  .rest .default rfl rfl

theorem performed_tails (a b : ℕ) : TailsAgree (performed a) (performed b) where
  escaping := ⟨none, by simp [performed, causes, default, DefaultHandlerEffects.rows,
    EffectRow.Within, EffectRow.empty]⟩
  requested := ⟨none, .inl rfl, .inl rfl⟩
  defaults := ⟨none, .inl rfl, .inl rfl⟩
  handled := ⟨none, .inl rfl, .inl rfl⟩

theorem joinAssign_bounds_performed :
    Below (performed 0) ((performed 0).joinAssign (performed 5)).1 ∧
      Below (performed 5) ((performed 0).joinAssign (performed 5)).1 :=
  (joinAssign_bounds (performed_reachable 0) (performed_reachable 5) (performed_tails 0 5)).1

/-- Two branches with one event each: the join has their choice as its trace, and the order holds
of neither branch and the join. -/
theorem joinAssign_not_above :
    Reachable (performed 0) ∧ Reachable (performed 5) ∧
      (performed 0).lessEqual ((performed 0).joinAssign (performed 5)).1 = false ∧
      (performed 5).lessEqual ((performed 0).joinAssign (performed 5)).1 = false :=
  ⟨performed_reachable 0, performed_reachable 5, by decide, by decide⟩

end sample

end EffectSummary
end EtasFrontend.Effects
