import Mathlib.Data.List.Basic

/-! A log of writes, the newest first. A store in which a write replaces the value of its key holds
the last write of each key; in an order, new writes keep these above all writes of the log just when
the last of them are above what they replace. -/
namespace EtasFrontend.Lib
variable {κ ν : Type} [DecidableEq κ]

def lastWrite : List (κ × ν) → κ → Option ν
  | [], _ => none
  | (key, value) :: earlier, k => if k = key then some value else lastWrite earlier k

variable {log earlier : List (κ × ν)} {k : κ} {v w : ν}

@[simp] theorem lastWrite_nil (k : κ) : lastWrite ([] : List (κ × ν)) k = none := rfl

theorem lastWrite_cons_self (k : κ) (v : ν) (log : List (κ × ν)) :
    lastWrite ((k, v) :: log) k = some v := if_pos rfl

theorem lastWrite_cons_ne {key : κ} (h : k ≠ key) (v : ν) (log : List (κ × ν)) :
    lastWrite ((key, v) :: log) k = lastWrite log k := if_neg h

theorem mem_of_lastWrite (h : lastWrite log k = some v) : (k, v) ∈ log := by
  induction log with
  | nil => cases h
  | cons write log ih =>
    obtain ⟨key, value⟩ := write
    by_cases hk : k = key
    · subst hk
      rw [lastWrite_cons_self] at h
      cases h
      exact List.mem_cons_self
    · rw [lastWrite_cons_ne hk] at h
      exact List.mem_cons_of_mem _ (ih h)

theorem exists_lastWrite (h : (k, v) ∈ log) : ∃ w, lastWrite log k = some w := by
  induction log with
  | nil => cases h
  | cons write log ih =>
    obtain ⟨key, value⟩ := write
    by_cases hk : k = key
    · exact ⟨value, if_pos hk⟩
    · rw [lastWrite_cons_ne hk]
      rcases List.mem_cons.mp h with heq | hmem
      · cases heq
        exact absurd rfl hk
      · exact ih hmem

theorem lastWrite_append (new log : List (κ × ν)) (k : κ) :
    lastWrite (new ++ log) k = (lastWrite new k).or (lastWrite log k) := by
  induction new with
  | nil => rfl
  | cons write new ih =>
    rw [List.cons_append, lastWrite, lastWrite]
    split
    · rfl
    · exact ih

/-- A key that is written once. -/
theorem lastWrite_of_count (hcount : (log.map Prod.fst).count k = 1) (h : (k, v) ∈ log) :
    lastWrite log k = some v := by
  induction log with
  | nil => cases h
  | cons write log ih =>
    obtain ⟨key, value⟩ := write
    rw [List.map_cons, List.count_cons] at hcount
    rcases List.mem_cons.mp h with heq | hmem
    · cases heq
      exact lastWrite_cons_self k v log
    · have hrest : 0 < (log.map Prod.fst).count k :=
        List.count_pos_iff.mpr (List.mem_map_of_mem hmem)
      by_cases hk : key = k
      · simp only [hk, beq_self_eq_true, if_true] at hcount
        omega
      · rw [lastWrite_cons_ne (Ne.symm hk)]
        simp only [beq_iff_eq, hk, if_false] at hcount
        exact ih hcount hmem

/-- Logs that agree write by write agree in what was written last. -/
theorem lastWrite_rel {ν' : Type} {P : ν → ν' → Prop} {log' : List (κ × ν')}
    (h : List.Forall₂ (fun write write' => write.1 = write'.1 ∧ P write.2 write'.2) log log')
    (k : κ) : Option.Rel P (lastWrite log k) (lastWrite log' k) := by
  induction h with
  | nil => exact .none
  | @cons write write' log log' hwrite _ ih =>
    obtain ⟨key, value⟩ := write
    obtain ⟨key', value'⟩ := write'
    obtain ⟨rfl, hvalue⟩ := hwrite
    rw [lastWrite, lastWrite]
    split
    · exact .some hvalue
    · exact ih

variable (le : ν → ν → Prop)

/-- Every value that was written is below the last one of its key. -/
def Dominated (log : List (κ × ν)) : Prop :=
  ∀ k v, (k, v) ∈ log → ∃ w, lastWrite log k = some w ∧ le v w

variable {le} in
/-- The last of the new writes of a key are above the others, and above the one that they replace. -/
theorem Dominated.append_iff (h : Dominated le log) (htrans : ∀ a b c, le a b → le b c → le a c)
    {new : List (κ × ν)} :
    Dominated le (new ++ log) ↔ ∀ k v, (k, v) ∈ new → ∃ w, lastWrite new k = some w ∧ le v w ∧
      ∀ old, lastWrite log k = some old → le old w := by
  constructor
  · intro hdominated k v hmem
    obtain ⟨w, hw⟩ := exists_lastWrite hmem
    have hbelow (v' : ν) (hv' : (k, v') ∈ new ++ log) : le v' w := by
      obtain ⟨last, hlast, hle⟩ := hdominated k v' hv'
      rw [lastWrite_append, hw, Option.some_or] at hlast
      cases hlast
      exact hle
    refine ⟨w, hw, hbelow v (List.mem_append_left _ hmem), fun old hold => ?_⟩
    exact hbelow old (List.mem_append_right _ (mem_of_lastWrite hold))
  · intro hnew k v hmem
    rw [lastWrite_append]
    rcases List.mem_append.mp hmem with hmem | hmem
    · obtain ⟨w, hw, hle, -⟩ := hnew k v hmem
      rw [hw]
      exact ⟨w, rfl, hle⟩
    · obtain ⟨old, hold, hle⟩ := h k v hmem
      cases hlast : lastWrite new k with
      | none => exact ⟨old, hold, hle⟩
      | some w =>
        obtain ⟨w', hw', -, habove⟩ := hnew k w (mem_of_lastWrite hlast)
        rw [hlast] at hw'
        cases hw'
        exact ⟨w, rfl, htrans v old w hle (habove old hold)⟩

end EtasFrontend.Lib
