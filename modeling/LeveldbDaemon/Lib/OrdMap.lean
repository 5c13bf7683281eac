import Mathlib.Data.List.Basic
import Mathlib.Order.Lattice

/-!
# Ordered finite maps

A finite map over a linearly ordered key type, stored as its list of entries in ascending key
order. The order is a field of the structure, so every map is sorted by construction and two
maps with the same lookups are equal (`OrdMap.ext_get`).
-/

namespace Lib

/-- A finite map as its entries in strictly ascending key order. -/
@[ext] structure OrdMap (κ ν : Type) [LinearOrder κ] where
  /-- The entries, ascending. -/
  entries : List (κ × ν)
  sorted : entries.Pairwise fun a b => a.1 < b.1
  deriving DecidableEq

namespace OrdMap

variable {κ ν : Type} [LinearOrder κ]

/-- The map without entries. -/
def empty : OrdMap κ ν := ⟨[], List.Pairwise.nil⟩

/-- Look a key up. -/
def get (m : OrdMap κ ν) (k : κ) : Option ν := m.entries.lookup k

/-- The keys, ascending. -/
def keys (m : OrdMap κ ν) : List κ := m.entries.map Prod.fst

/-! ## Writing -/

/-- Insert into an ascending entry list, replacing an entry with the same key. -/
def insertEntry (k : κ) (v : ν) : List (κ × ν) → List (κ × ν)
  | [] => [(k, v)]
  | (k', v') :: rest =>
    if k < k' then (k, v) :: (k', v') :: rest
    else if k = k' then (k, v) :: rest
    else (k', v') :: insertEntry k v rest

theorem mem_insertEntry {k : κ} {v : ν} {e : κ × ν} {l : List (κ × ν)}
    (h : e ∈ insertEntry k v l) : e = (k, v) ∨ e ∈ l := by
  induction l with
  | nil => simpa [insertEntry] using h
  | cons x l ih =>
    obtain ⟨k', v'⟩ := x
    simp only [insertEntry] at h
    split_ifs at h <;> simp only [List.mem_cons] at h ⊢
    · exact h
    · exact h.imp_right Or.inr
    · rcases h with h | h
      · exact Or.inr (Or.inl h)
      · exact (ih h).imp_right Or.inr

theorem sorted_insertEntry (k : κ) (v : ν) {l : List (κ × ν)}
    (h : l.Pairwise fun a b => a.1 < b.1) :
    (insertEntry k v l).Pairwise fun a b => a.1 < b.1 := by
  induction l with
  | nil => simp [insertEntry]
  | cons x l ih =>
    obtain ⟨k', v'⟩ := x
    obtain ⟨hx, hl⟩ := List.pairwise_cons.1 h
    simp only [insertEntry]
    split_ifs with h1 h2
    · refine List.pairwise_cons.2 ⟨?_, h⟩
      intro e he
      rcases List.mem_cons.1 he with rfl | he
      · exact h1
      · exact h1.trans (hx e he)
    · subst h2
      exact List.pairwise_cons.2 ⟨hx, hl⟩
    · refine List.pairwise_cons.2 ⟨?_, ih hl⟩
      intro e he
      rcases mem_insertEntry he with rfl | he
      · exact lt_of_le_of_ne (not_lt.1 h1) (Ne.symm h2)
      · exact hx e he

/-- Set a key. -/
def insert (m : OrdMap κ ν) (k : κ) (v : ν) : OrdMap κ ν :=
  ⟨insertEntry k v m.entries, sorted_insertEntry k v m.sorted⟩

/-- Remove a key. -/
def erase (m : OrdMap κ ν) (k : κ) : OrdMap κ ν :=
  ⟨m.entries.filter fun e => e.1 ≠ k, m.sorted.filter _⟩

/-! ## Lookups -/

theorem lookup_insertEntry_self (k : κ) (v : ν) (l : List (κ × ν)) :
    (insertEntry k v l).lookup k = some v := by
  induction l with
  | nil => simp [insertEntry]
  | cons x l ih =>
    obtain ⟨k', v'⟩ := x
    simp only [insertEntry]
    split_ifs with h1 h2
    · simp
    · simp
    · simp [List.lookup_cons, beq_false_of_ne h2, ih]

theorem lookup_insertEntry_ne {k k' : κ} (h : k' ≠ k) (v : ν) (l : List (κ × ν)) :
    (insertEntry k v l).lookup k' = l.lookup k' := by
  induction l with
  | nil => simp [insertEntry, List.lookup_cons, beq_false_of_ne h]
  | cons x l ih =>
    obtain ⟨k'', v''⟩ := x
    simp only [insertEntry]
    split_ifs with h1 h2
    · simp [List.lookup_cons, beq_false_of_ne h]
    · subst h2
      simp [List.lookup_cons, beq_false_of_ne h]
    · simp [List.lookup_cons, ih]

theorem lookup_filter_ne {k k' : κ} (h : k' ≠ k) (l : List (κ × ν)) :
    (l.filter fun e => e.1 ≠ k).lookup k' = l.lookup k' := by
  induction l with
  | nil => rfl
  | cons x l ih =>
    obtain ⟨k'', v''⟩ := x
    by_cases hk : k'' = k
    · subst hk
      simpa [List.lookup_cons, beq_false_of_ne h] using ih
    · simp only [ne_eq, decide_not, hk, decide_false, Bool.not_false, List.filter_cons_of_pos,
        List.lookup_cons]
      rw [← ih]
      simp

@[simp] theorem get_empty (k : κ) : (empty : OrdMap κ ν).get k = none := rfl

@[simp] theorem get_insert_self (m : OrdMap κ ν) (k : κ) (v : ν) :
    (m.insert k v).get k = some v :=
  lookup_insertEntry_self k v m.entries

theorem get_insert_ne (m : OrdMap κ ν) {k k' : κ} (h : k' ≠ k) (v : ν) :
    (m.insert k v).get k' = m.get k' :=
  lookup_insertEntry_ne h v m.entries

@[simp] theorem get_erase_self (m : OrdMap κ ν) (k : κ) : (m.erase k).get k = none := by
  refine List.lookup_eq_none_iff.2 ?_
  intro e he
  have hne : e.1 ≠ k := by simpa using (List.mem_filter.1 he).2
  simpa using Ne.symm hne

theorem get_erase_ne (m : OrdMap κ ν) {k k' : κ} (h : k' ≠ k) :
    (m.erase k).get k' = m.get k' :=
  lookup_filter_ne h m.entries

theorem lookup_of_mem {l : List (κ × ν)} (hs : l.Pairwise fun a b => a.1 < b.1) {k : κ} {v : ν}
    (h : (k, v) ∈ l) : l.lookup k = some v := by
  induction l with
  | nil => cases h
  | cons x l ih =>
    obtain ⟨k', v'⟩ := x
    obtain ⟨hx, hl⟩ := List.pairwise_cons.1 hs
    rcases List.mem_cons.1 h with h | h
    · cases h
      simp
    · have hne : k ≠ k' := (hx _ h).ne'
      simp [List.lookup_cons, beq_false_of_ne hne, ih hl h]

/-- The entries are exactly the graph of the lookup function. -/
theorem mem_entries_iff {m : OrdMap κ ν} {k : κ} {v : ν} :
    (k, v) ∈ m.entries ↔ m.get k = some v := by
  refine ⟨lookup_of_mem m.sorted, fun h => ?_⟩
  obtain ⟨l₁, l₂, hl, -⟩ := List.lookup_eq_some_iff.1 h
  rw [hl]
  simp

/-! ## Extensionality -/

theorem entries_eq_of_mem_iff {l l' : List (κ × ν)} (hs : l.Pairwise fun a b => a.1 < b.1)
    (hs' : l'.Pairwise fun a b => a.1 < b.1) (h : ∀ e, e ∈ l ↔ e ∈ l') : l = l' := by
  have hn : l.Nodup := hs.imp fun hab hEq => absurd (hEq ▸ hab) (lt_irrefl _)
  have hn' : l'.Nodup := hs'.imp fun hab hEq => absurd (hEq ▸ hab) (lt_irrefl _)
  have hp : l.Perm l' := (List.perm_ext_iff_of_nodup hn hn').2 h
  exact hp.eq_of_pairwise (fun a b _ _ hab hba => absurd hab (lt_asymm hba)) hs hs'

/-- **Maps with equal lookups are equal.** -/
theorem ext_get {m m' : OrdMap κ ν} (h : ∀ k, m.get k = m'.get k) : m = m' := by
  refine OrdMap.ext (entries_eq_of_mem_iff m.sorted m'.sorted fun e => ?_)
  rw [mem_entries_iff (m := m), mem_entries_iff (m := m'), h]

end OrdMap

end Lib
