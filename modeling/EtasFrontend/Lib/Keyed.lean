import Mathlib.Data.List.Destutter
import Mathlib.Data.List.Sort

/-! Joins that report whether they changed their first operand, and lists of entries with a key
into which one entry after the other is recorded: an entry is joined with the first one of its
key, or added in order when there is none. -/
namespace EtasFrontend.Lib

/-- A join for an order. `Fits` says which operands have an upper bound. -/
structure LawfulJoin {α : Type} (le : α → α → Bool) (join : α → α → α × Bool)
    (Fits : α → α → Prop) : Prop where
  left : ∀ a b, le a (join a b).1 = true
  right : ∀ a b, Fits a b → le b (join a b).1 = true
  unchanged : ∀ a b, (join a b).2 = false → (join a b).1 = a
  absorbed : ∀ a b, le b a = true → join a b = (a, false)

variable {α κ : Type} [DecidableEq κ]

/-- Update the first entry that satisfies `p`; `none` when there is none. -/
def updateFirst (p : α → Bool) (f : α → α × Bool) : List α → Option (List α × Bool)
  | [] => none
  | a :: rest =>
    if p a then some ((f a).1 :: rest, (f a).2)
    else (updateFirst p f rest).map fun r => (a :: r.1, r.2)

/-- How entries are identified, joined and sorted. -/
structure Keyed (α κ : Type) where
  key : α → κ
  join : α → α → α × Bool
  le : α → α → Bool

namespace Keyed
variable (K : Keyed α κ)

def record (entries : List α) (new : α) : List α × Bool :=
  match updateFirst (fun e => K.key e == K.key new) (fun e => K.join e new) entries with
  | some result => result
  | none => ((entries ++ [new]).insertionSort fun a b => K.le a b = true, true)

def recordAll : List α → List α → List α × Bool
  | entries, [] => (entries, false)
  | entries, new :: rest =>
    ((recordAll (K.record entries new).1 rest).1,
      (K.record entries new).2 || (recordAll (K.record entries new).1 rest).2)

end Keyed

variable {f : α → α × Bool} {p : α → Bool}

theorem updateFirst_eq_none {l : List α} : updateFirst p f l = none ↔ ∀ a ∈ l, p a = false := by
  induction l with
  | nil => simp [updateFirst]
  | cons a l ih =>
    simp only [updateFirst]
    split
    · next h => simp [h]
    · next h => simp [ih, h]

theorem updateFirst_eq_some {l : List α} {r : List α × Bool} (h : updateFirst p f l = some r) :
    ∃ front a back, l = front ++ a :: back ∧ (∀ b ∈ front, p b = false) ∧ p a = true ∧
      r = (front ++ (f a).1 :: back, (f a).2) := by
  induction l generalizing r with
  | nil => simp [updateFirst] at h
  | cons a l ih =>
    simp only [updateFirst] at h
    split at h
    · next hp => exact ⟨[], a, l, rfl, by simp, hp, (Option.some.inj h).symm⟩
    · next hp =>
      obtain ⟨r', hr', rfl⟩ := Option.map_eq_some_iff.1 h
      obtain ⟨front, x, back, rfl, hfront, hx, rfl⟩ := ih hr'
      refine ⟨a :: front, x, back, rfl, ?_, hx, rfl⟩
      simpa [hp] using hfront

theorem updateFirst_append {front : List α} {a : α} (back : List α)
    (hfront : ∀ b ∈ front, p b = false) (ha : p a = true) :
    updateFirst p f (front ++ a :: back) = some (front ++ (f a).1 :: back, (f a).2) := by
  induction front with
  | nil => simp [updateFirst, ha]
  | cons b front ih =>
    have hb := hfront b List.mem_cons_self
    simp [updateFirst, hb, ih fun c hc => hfront c (List.mem_cons_of_mem _ hc)]

namespace Keyed
variable {K : Keyed α κ} {entries news : List α} {new : α}

theorem record_cases (K : Keyed α κ) (entries : List α) (new : α) :
    (∃ front e back, entries = front ++ e :: back ∧ (∀ b ∈ front, K.key b ≠ K.key new) ∧
      K.key e = K.key new ∧
      K.record entries new = (front ++ (K.join e new).1 :: back, (K.join e new).2)) ∨
    (∀ e ∈ entries, K.key e ≠ K.key new) ∧
      (K.record entries new).1.Perm (new :: entries) ∧ (K.record entries new).2 = true := by
  cases h : updateFirst (fun e => K.key e == K.key new) (fun e => K.join e new) entries with
  | some r =>
    obtain ⟨front, e, back, hl, hfront, he, rfl⟩ := updateFirst_eq_some h
    refine .inl ⟨front, e, back, hl, ?_, by simpa using he, by simp [record, h]⟩
    intro b hb
    simpa using hfront b hb
  | none =>
    refine .inr ⟨fun e he => by simpa using updateFirst_eq_none.1 h e he, ?_, by simp [record, h]⟩
    simpa [record, h] using
      (List.perm_insertionSort _ _).trans (List.perm_append_singleton new entries)

theorem record_ne_nil (K : Keyed α κ) (entries : List α) (new : α) :
    (K.record entries new).1 ≠ [] := by
  obtain ⟨front, e, back, -, -, -, hr⟩ | ⟨-, hp, -⟩ := record_cases K entries new
  · simp [hr]
  · intro h
    rw [h] at hp
    exact List.cons_ne_nil _ _ hp.nil_eq.symm

theorem recordAll_ne_nil (K : Keyed α κ) (h : entries ≠ [] ∨ news ≠ []) :
    (K.recordAll entries news).1 ≠ [] := by
  induction news generalizing entries with
  | nil => simpa [recordAll] using h
  | cons n rest ih => exact ih (.inl (record_ne_nil K entries n))

/-- A property of entries that joins keep holds after one recording. -/
theorem forall_record {P : α → Prop} (hjoin : ∀ e n, P e → P n → P (K.join e n).1)
    (he : ∀ e ∈ entries, P e) (hn : P new) : ∀ e ∈ (K.record entries new).1, P e := by
  intro e h
  obtain ⟨front, x, back, rfl, -, -, hr⟩ | ⟨-, hp, -⟩ := record_cases K entries new
  · rw [hr] at h
    simp only [List.mem_append, List.mem_cons] at h he
    obtain h | rfl | h := h
    · exact he e (.inl h)
    · exact hjoin x new (he x (.inr (.inl rfl))) hn
    · exact he e (.inr (.inr h))
  · obtain rfl | h := List.mem_cons.1 (hp.mem_iff.1 h)
    · exact hn
    · exact he e h

theorem forall_recordAll {P : α → Prop} (hjoin : ∀ e n, P e → P n → P (K.join e n).1)
    (he : ∀ e ∈ entries, P e) (hn : ∀ n ∈ news, P n) : ∀ e ∈ (K.recordAll entries news).1, P e := by
  induction news generalizing entries with
  | nil => exact he
  | cons n rest ih =>
    exact ih (forall_record hjoin he (hn n List.mem_cons_self))
      fun m hm => hn m (List.mem_cons_of_mem _ hm)

section upper
variable {P : α → Prop} {R : α → α → Prop}

/-- What is above an entry, or above the new one, stays after one recording. -/
theorem exists_above_record (hrefl : ∀ a, R a a)
    (hjoin : ∀ e n, P e → P n → K.key e = K.key n → R e (K.join e n).1 ∧ R n (K.join e n).1)
    (he : ∀ e ∈ entries, P e) (hn : P new) {x : α} (hx : x ∈ new :: entries) :
    ∃ e ∈ (K.record entries new).1, R x e := by
  obtain ⟨front, y, back, rfl, -, hy, hr⟩ | ⟨-, hp, -⟩ := record_cases K entries new
  · have hj := hjoin y new (he y (by simp)) hn hy
    simp only [hr, List.mem_cons, List.mem_append] at hx ⊢
    obtain rfl | h | rfl | h := hx
    · exact ⟨_, .inr (.inl rfl), hj.2⟩
    · exact ⟨x, .inl h, hrefl x⟩
    · exact ⟨_, .inr (.inl rfl), hj.1⟩
    · exact ⟨x, .inr (.inr h), hrefl x⟩
  · exact ⟨x, hp.mem_iff.2 hx, hrefl x⟩

/-- Every entry, old or new, has one above it in the end. -/
theorem exists_above_recordAll (hrefl : ∀ a, R a a) (htrans : ∀ a b c, R a b → R b c → R a c)
    (hjoin : ∀ e n, P e → P n → K.key e = K.key n → R e (K.join e n).1 ∧ R n (K.join e n).1)
    (hP : ∀ e n, P e → P n → P (K.join e n).1)
    (he : ∀ e ∈ entries, P e) (hn : ∀ n ∈ news, P n) {x : α} (hx : x ∈ entries ++ news) :
    ∃ e ∈ (K.recordAll entries news).1, R x e := by
  induction news generalizing entries x with
  | nil => exact ⟨x, by simpa [recordAll] using hx, hrefl x⟩
  | cons n rest ih =>
    have hrest : ∀ m ∈ rest, P m := fun m hm => hn m (List.mem_cons_of_mem _ hm)
    have hmid : ∀ e ∈ (K.record entries n).1, P e := forall_record hP he (hn n List.mem_cons_self)
    have hstep : ∀ y ∈ n :: entries, ∃ e ∈ (K.recordAll entries (n :: rest)).1, R y e := by
      intro y hy
      obtain ⟨e, he', hye⟩ := exists_above_record hrefl hjoin he (hn n (by simp)) hy
      obtain ⟨e', he'', hee⟩ := ih hmid hrest (List.mem_append_left _ he')
      exact ⟨e', he'', htrans _ _ _ hye hee⟩
    simp only [List.mem_append, List.mem_cons] at hx
    obtain h | rfl | h := hx
    · exact hstep x (List.mem_cons_of_mem _ h)
    · exact hstep x List.mem_cons_self
    · exact ih hmid hrest (List.mem_append_right _ h)

end upper

/-! When the entries stay as they are. -/

theorem recordAll_unchanged (hjoin : ∀ e n, (K.join e n).2 = false → (K.join e n).1 = e)
    (h : (K.recordAll entries news).2 = false) : (K.recordAll entries news).1 = entries := by
  induction news with
  | nil => rfl
  | cons n rest ih =>
    simp only [recordAll, Bool.or_eq_false_iff] at h ⊢
    have hstep : (K.record entries n).1 = entries := by
      obtain ⟨front, e, back, rfl, -, -, hr⟩ | ⟨-, -, hc⟩ := record_cases K entries n
      · rw [hr] at h ⊢
        rw [hjoin e n h.1]
      · simp [hc] at h
    rw [hstep] at h ⊢
    exact ih h.2

/-- New entries that the old ones of their keys absorb. -/
theorem recordAll_absorbed (hkeys : (entries.map K.key).Nodup)
    (h : ∀ n ∈ news, ∃ e ∈ entries, K.key e = K.key n ∧ K.join e n = (e, false)) :
    K.recordAll entries news = (entries, false) := by
  induction news with
  | nil => rfl
  | cons n rest ih =>
    obtain ⟨e, he, hk, hj⟩ := h n List.mem_cons_self
    have hstep : K.record entries n = (entries, false) := by
      obtain ⟨front, x, back, rfl, -, hx, hr⟩ | ⟨hne, -⟩ := record_cases K entries n
      · have hex : x = e := List.inj_on_of_nodup_map hkeys (by simp) he (hx.trans hk.symm)
        rw [hr, hex, hj]
      · exact absurd hk (hne e he)
    simp only [recordAll, hstep, ih fun m hm => h m (List.mem_cons_of_mem _ hm), Bool.or_self]

/-- With distinct keys each entry is joined with itself. -/
theorem recordAll_self (hkey : ∀ e n, K.key (K.join e n).1 = K.key e)
    (hkeys : (entries.map K.key).Nodup) :
    K.recordAll entries entries =
      (entries.map fun e => (K.join e e).1, entries.any fun e => (K.join e e).2) := by
  -- the entries before the current one are joined already
  suffices h : ∀ done rest : List α, ((done ++ rest).map K.key).Nodup →
      K.recordAll (done.map (fun e => (K.join e e).1) ++ rest) rest =
        ((done ++ rest).map fun e => (K.join e e).1, rest.any fun e => (K.join e e).2) by
    simpa using h [] entries hkeys
  intro done rest
  induction rest generalizing done with
  | nil => intro _; simp [recordAll]
  | cons n rest ih =>
    intro hnd
    have hfirst : ∀ d ∈ done.map (fun e => (K.join e e).1), K.key d ≠ K.key n := by
      intro d hd he
      obtain ⟨c, hc, rfl⟩ := List.mem_map.1 hd
      rw [hkey] at he
      rw [List.map_append, List.nodup_append] at hnd
      exact hnd.2.2 _ (List.mem_map_of_mem hc) _ (List.mem_map_of_mem List.mem_cons_self) he
    have hstep : K.record (done.map (fun e => (K.join e e).1) ++ n :: rest) n =
        ((done ++ [n]).map (fun e => (K.join e e).1) ++ rest, (K.join n n).2) := by
      rw [record, updateFirst_append rest (fun d hd => by simpa using hfirst d hd) (by simp)]
      simp
    rw [recordAll, hstep]
    simp only
    rw [ih (done ++ [n]) (by simpa using hnd)]
    simp

/-! The keys, when a join keeps the key of its first operand. -/

section keys
variable (hkey : ∀ e n, K.key (K.join e n).1 = K.key e)
include hkey

/-- A key that was there keeps its place. -/
theorem keys_record_of_mem (h : K.key new ∈ entries.map K.key) :
    (K.record entries new).1.map K.key = entries.map K.key := by
  obtain ⟨front, e, back, rfl, -, -, hr⟩ | ⟨hnew, -, -⟩ := record_cases K entries new
  · simp [hr, hkey]
  · obtain ⟨e, he, hk⟩ := List.mem_map.mp h
    exact absurd hk (hnew e he)

theorem mem_keys_record {k : κ} :
    k ∈ (K.record entries new).1.map K.key ↔ k = K.key new ∨ k ∈ entries.map K.key := by
  obtain ⟨front, e, back, rfl, -, he, hr⟩ | ⟨-, hp, -⟩ := record_cases K entries new
  · have hsame : (K.record (front ++ e :: back) new).1.map K.key = (front ++ e :: back).map K.key := by
      simp [hr, hkey]
    have hmem : K.key new ∈ (front ++ e :: back).map K.key := by simp [he]
    rw [hsame]
    constructor
    · exact .inr
    · rintro (rfl | h)
      · exact hmem
      · exact h
  · rw [(hp.map K.key).mem_iff, List.map_cons, List.mem_cons]

theorem mem_keys_recordAll {k : κ} : k ∈ (K.recordAll entries news).1.map K.key ↔
    k ∈ entries.map K.key ∨ k ∈ news.map K.key := by
  induction news generalizing entries with
  | nil => simp [recordAll]
  | cons n rest ih =>
    rw [recordAll, ih, mem_keys_record hkey, List.map_cons, List.mem_cons]
    tauto

theorem nodup_keys_record (h : (entries.map K.key).Nodup) :
    ((K.record entries new).1.map K.key).Nodup := by
  obtain ⟨front, e, back, rfl, -, he, hr⟩ | ⟨hnew, hp, -⟩ := record_cases K entries new
  · have hmem : K.key new ∈ (front ++ e :: back).map K.key := by simp [he]
    rwa [keys_record_of_mem hkey hmem]
  · rw [(hp.map K.key).nodup_iff, List.map_cons, List.nodup_cons]
    refine ⟨?_, h⟩
    intro hmem
    obtain ⟨e, he, hk⟩ := List.mem_map.mp hmem
    exact hnew e he hk

variable {r : κ → κ → Prop} [Std.Total r] [IsTrans κ r]

/-- The keys stay in the order by which new entries are sorted in. -/
theorem sorted_keys_record (hle : ∀ a b, K.le a b = true ↔ r (K.key a) (K.key b))
    (h : (entries.map K.key).Pairwise r) : ((K.record entries new).1.map K.key).Pairwise r := by
  by_cases hmem : K.key new ∈ entries.map K.key
  · rwa [keys_record_of_mem hkey hmem]
  · have hnone : updateFirst (fun e => K.key e == K.key new) (fun e => K.join e new) entries =
        none := by
      rw [updateFirst_eq_none]
      intro e he
      rw [beq_eq_false_iff_ne]
      intro heq
      exact hmem (List.mem_map.mpr ⟨e, he, heq⟩)
    have htotal : Std.Total fun a b => K.le a b = true := by
      constructor
      intro a b
      rw [hle, hle]
      exact Std.Total.total _ _
    have htrans : IsTrans α fun a b => K.le a b = true := by
      constructor
      intro a b c hab hbc
      rw [hle] at hab hbc ⊢
      exact IsTrans.trans _ _ _ hab hbc
    rw [record, hnone, List.pairwise_map]
    have hsorted := List.pairwise_insertionSort (fun a b => K.le a b = true) (entries ++ [new])
    exact hsorted.imp fun {a b} hab => (hle a b).mp hab

/-- Recorded one after the other, the keys stay sorted and distinct. -/
theorem keys_recordAll (hle : ∀ a b, K.le a b = true ↔ r (K.key a) (K.key b))
    (hsorted : (entries.map K.key).Pairwise r) (hnodup : (entries.map K.key).Nodup) :
    ((K.recordAll entries news).1.map K.key).Pairwise r ∧
      ((K.recordAll entries news).1.map K.key).Nodup := by
  induction news generalizing entries with
  | nil => exact ⟨hsorted, hnodup⟩
  | cons n rest ih =>
    exact ih (sorted_keys_record hkey hle hsorted) (nodup_keys_record hkey hnodup)

end keys

/-! What is recorded stays below an entry. -/

/-- Entries in the order `r` of their keys. A join gives an entry of the same key that is above
both operands. -/
structure Merges (K : Keyed α κ) (r : κ → κ → Prop) (R : α → α → Prop) : Prop where
  key : ∀ e n, K.key (K.join e n).1 = K.key e
  le : ∀ a b, K.le a b = true ↔ r (K.key a) (K.key b)
  refl : ∀ a, R a a
  trans : ∀ a b c, R a b → R b c → R a c
  join : ∀ e n, K.key e = K.key n → R e (K.join e n).1 ∧ R n (K.join e n).1

/-- The entries are sorted, have distinct keys, and account for what was recorded. -/
structure Accounts (K : Keyed α κ) (r : κ → κ → Prop) (R : α → α → Prop)
    (recorded entries : List α) : Prop where
  sorted : (entries.map K.key).Pairwise r
  distinct : (entries.map K.key).Nodup
  above : ∀ x ∈ recorded, ∃ e ∈ entries, R x e
  known : ∀ k ∈ entries.map K.key, k ∈ recorded.map K.key

namespace Accounts
variable {r : κ → κ → Prop} {R : α → α → Prop} {recorded recorded' entries' : List α}

omit [DecidableEq κ] in
theorem nil (K : Keyed α κ) (r : κ → κ → Prop) (R : α → α → Prop) : K.Accounts r R [] [] where
  sorted := List.Pairwise.nil
  distinct := List.nodup_nil
  above _ h := absurd h List.not_mem_nil
  known _ h := absurd h List.not_mem_nil

omit [DecidableEq κ] in
/-- Entries that are changed one by one, each to one above it. -/
theorem map (h : K.Accounts r R recorded entries) (hK : K.Merges r R) {f : α → α}
    (hf : ∀ a, K.key (f a) = K.key a) (hR : ∀ a, R a (f a)) :
    K.Accounts r R recorded (entries.map f) := by
  have hkeys : (entries.map f).map K.key = entries.map K.key := by
    rw [List.map_map]
    exact List.map_congr_left fun a _ => hf a
  constructor
  · rw [hkeys]
    exact h.sorted
  · rw [hkeys]
    exact h.distinct
  · intro x hx
    obtain ⟨e, he, hxe⟩ := h.above x hx
    exact ⟨f e, List.mem_map_of_mem he, hK.trans x e (f e) hxe (hR e)⟩
  · rw [hkeys]
    exact h.known

variable [Std.Total r] [IsTrans κ r]

theorem recordAll (h : K.Accounts r R recorded entries) (hK : K.Merges r R)
    (h' : K.Accounts r R recorded' entries') :
    K.Accounts r R (recorded ++ recorded') (K.recordAll entries entries').1 := by
  have hkeys : ((K.recordAll entries entries').1.map K.key).Pairwise r ∧
      ((K.recordAll entries entries').1.map K.key).Nodup :=
    keys_recordAll hK.key hK.le h.sorted h.distinct
  have habove : ∀ x ∈ entries ++ entries', ∃ e ∈ (K.recordAll entries entries').1, R x e :=
    fun x hx => exists_above_recordAll (P := fun _ => True) hK.refl hK.trans
      (fun e n _ _ => hK.join e n) (fun _ _ _ _ => trivial) (fun _ _ => trivial)
      (fun _ _ => trivial) hx
  have hstep : ∀ x, (∃ e ∈ entries ++ entries', R x e) →
      ∃ e ∈ (K.recordAll entries entries').1, R x e := by
    rintro x ⟨e, he, hxe⟩
    obtain ⟨top, htop, hetop⟩ := habove e he
    exact ⟨top, htop, hK.trans x e top hxe hetop⟩
  constructor
  · exact hkeys.1
  · exact hkeys.2
  · intro x hx
    apply hstep
    rcases List.mem_append.mp hx with hx | hx
    · obtain ⟨e, he, hxe⟩ := h.above x hx
      exact ⟨e, List.mem_append_left _ he, hxe⟩
    · obtain ⟨e, he, hxe⟩ := h'.above x hx
      exact ⟨e, List.mem_append_right _ he, hxe⟩
  · intro k hk
    rw [List.map_append, List.mem_append]
    exact ((mem_keys_recordAll hK.key).mp hk).imp (h.known k) (h'.known k)

theorem record (h : K.Accounts r R recorded entries) (hK : K.Merges r R) (new : α) :
    K.Accounts r R (recorded ++ [new]) (K.record entries new).1 := by
  have hnew : K.Accounts r R [new] [new] := by
    constructor
    · exact List.pairwise_singleton ..
    · exact List.nodup_singleton _
    · exact fun x hx => ⟨x, hx, hK.refl x⟩
    · exact fun k hk => hk
  exact h.recordAll hK hnew

end Accounts

end Keyed

/-! Sorted lists without adjacent repetitions. -/

private theorem mem_destutter'_ne {α : Type} [DecidableEq α] {a : α} (l : List α) (b : α) :
    a ∈ l.destutter' (· ≠ ·) b ↔ a = b ∨ a ∈ l := by
  induction l generalizing b with
  | nil => simp
  | cons c l ih =>
    rw [List.destutter'_cons]
    split_ifs with h
    · rw [List.mem_cons, ih, List.mem_cons]
    · rw [ih, List.mem_cons, not_not.mp h]
      tauto

theorem mem_destutter_insertionSort {α : Type} [DecidableEq α] (le : α → α → Prop)
    [DecidableRel le] {l : List α} {a : α} :
    a ∈ (l.insertionSort le).destutter (· ≠ ·) ↔ a ∈ l := by
  rw [← List.mem_insertionSort (l := l) le]
  cases l.insertionSort le with
  | nil => rfl
  | cons b l => rw [List.destutter_cons', mem_destutter'_ne, List.mem_cons]

end EtasFrontend.Lib
