import LeveldbDaemon.Bytes
import LeveldbDaemon.Lib.Write

/-!
# LevelDB and the lock manager

LevelDB as `src/db.hpp` uses it: an ordered finite map from byte strings to byte strings, with
iterators that read a snapshot. `Iterator::Next` requires `Valid()`; a call without it is a fault
of the model, as are the `std::logic_error`s of the replication code.

`std::hash` and the iteration order of `std::unordered_map` belong to the standard library and
are left open, as parameters collected in `Env`.
-/

namespace LeveldbDaemon

open Lib

/-- A LevelDB database. -/
abbrev Db := OrdMap Bytes Bytes

/-- A change of one key: a `Put` or a `Delete`. -/
abbrev Change := Write Bytes Bytes

/-- Why a step does not go through: a precondition of LevelDB's iterator is violated, the code
throws `std::logic_error`, or the step is not possible in this state. -/
inductive Fault where
  | invalidNext
  | logicError (what : String)
  | disabled
  deriving DecidableEq, Repr

/-! ## Iterators -/

/-- An iterator over a snapshot: the entries from its position to the end. It is `Valid()` when
it stands on an entry. -/
structure Iterator where
  snapshot : Db
  pos : List (Bytes × Bytes)

/-- `DB::NewIterator`: not positioned yet. -/
def newIterator (db : Db) : Iterator := ⟨db, []⟩

namespace Iterator

/-- Position at the first key that is at or past `target`. -/
def seek (it : Iterator) (target : Bytes) : Iterator :=
  { it with pos := it.snapshot.entries.dropWhile fun e => e.1 < target }

def seekToFirst (it : Iterator) : Iterator := { it with pos := it.snapshot.entries }

/-- `Next` requires `Valid()`. -/
def next (it : Iterator) : Except Fault Iterator :=
  match it.pos with
  | [] => .error .invalidNext
  | _ :: rest => .ok { it with pos := rest }

end Iterator

/-! ## What an iterator sees -/

/-- The entries strictly past a key. -/
def entriesAfter (db : Db) (k : Bytes) : List (Bytes × Bytes) :=
  db.entries.filter fun e => k < e.1

theorem dropWhile_lt_eq_filter {l : List (Bytes × Bytes)}
    (hs : l.Pairwise fun a b => a.1 < b.1) (k : Bytes) :
    (l.dropWhile fun e => e.1 < k) = l.filter fun e => k ≤ e.1 := by
  induction l with
  | nil => rfl
  | cons x l ih =>
    obtain ⟨hx, hl⟩ := List.pairwise_cons.1 hs
    by_cases hk : x.1 < k
    · simp [hk, ih hl]
    · have hle : k ≤ x.1 := not_lt.1 hk
      have hall : l.filter (fun e => k ≤ e.1) = l := by
        refine List.filter_eq_self.2 ?_
        intro e he
        simpa using hle.trans (hx e he).le
      rw [List.dropWhile_cons_of_neg (by simpa using hk), List.filter_cons_of_pos (by simpa using hle),
        hall]

/-- Everything at or past `k` starts with the first such entry and goes on strictly past it. -/
theorem seek_pos_eq_cons {db : Db} {k : Bytes} {x : Bytes × Bytes} {rest : List (Bytes × Bytes)}
    (h : ((newIterator db).seek k).pos = x :: rest) :
    k ≤ x.1 ∧ x ∈ db.entries ∧ rest = entriesAfter db x.1 := by
  have hf : db.entries.filter (fun e => k ≤ e.1) = x :: rest := by
    rw [← dropWhile_lt_eq_filter db.sorted]
    exact h
  have hx : x ∈ db.entries.filter fun e => k ≤ e.1 := by rw [hf]; exact List.mem_cons_self
  obtain ⟨hmem, hk⟩ := List.mem_filter.1 hx
  have hkx : k ≤ x.1 := by simpa using hk
  have hsorted : (x :: rest).Pairwise fun a b => a.1 < b.1 := hf ▸ db.sorted.filter _
  refine ⟨hkx, hmem, ?_⟩
  have hafter : entriesAfter db x.1 = (x :: rest).filter fun e => x.1 < e.1 := by
    rw [← hf, List.filter_filter]
    refine List.filter_congr ?_
    intro e _
    by_cases hxe : x.1 < e.1
    · simp [hxe, hkx.trans hxe.le]
    · simp [hxe]
  rw [hafter, List.filter_cons_of_neg (by simp)]
  refine (List.filter_eq_self.2 ?_).symm
  intro e he
  simpa using (List.pairwise_cons.1 hsorted).1 e he

theorem seek_pos_eq_nil {db : Db} {k : Bytes} (h : ((newIterator db).seek k).pos = []) :
    ∀ e ∈ db.entries, e.1 < k := by
  intro e he
  have hf : db.entries.filter (fun e => k ≤ e.1) = [] := by
    rw [← dropWhile_lt_eq_filter db.sorted]
    exact h
  simpa using List.filter_eq_nil_iff.1 hf e he

/-- Seeking a key that is there lands on it. -/
theorem seek_pos_of_mem {db : Db} {k v : Bytes} (h : db.get k = some v) :
    ((newIterator db).seek k).pos = (k, v) :: entriesAfter db k := by
  have hmem := OrdMap.mem_entries_iff.2 h
  cases hp : ((newIterator db).seek k).pos with
  | nil => exact absurd (seek_pos_eq_nil hp _ hmem) (lt_irrefl k)
  | cons x rest =>
    obtain ⟨hk, hx, hrest⟩ := seek_pos_eq_cons hp
    have hxk : x.1 = k := by
      by_contra hne
      have hlt : k < x.1 := lt_of_le_of_ne hk (Ne.symm hne)
      have hin : (k, v) ∈ x :: rest := by
        rw [← hp]
        show (k, v) ∈ db.entries.dropWhile _
        rw [dropWhile_lt_eq_filter db.sorted]
        exact List.mem_filter.2 ⟨hmem, by simp⟩
      rcases List.mem_cons.1 hin with hin | hin
      · exact hne (congrArg Prod.fst hin).symm
      · rw [hrest] at hin
        exact lt_asymm hlt (by simpa using (List.mem_filter.1 hin).2)
    obtain ⟨k', v'⟩ := x
    obtain rfl : k' = k := hxk
    have hv : v' = v := by
      have := OrdMap.mem_entries_iff.1 hx
      rw [h] at this
      exact (Option.some.inj this).symm
    rw [hrest, hv]

/-! ## Standard library -/

/-- What the standard library leaves open: `std::hash<std::string>`, and the order in which an
`std::unordered_map` filled in a given order is iterated. -/
structure Env where
  hash : Bytes → Nat
  iterOrder : List (Bytes × Bytes) → List (Bytes × Bytes)
  iterOrder_perm : ∀ l, (iterOrder l).Perm l

/-- A hash that sends every key to one lock, and maps that iterate in insertion order. -/
def Env.insertionOrder : Env := ⟨fun _ => 0, id, fun _ => .refl _⟩

/-- `LockManager::get`: 1024 locks, shared by all keys. -/
def Env.lockOf (env : Env) (key : Bytes) : Nat := env.hash key % 1024

end LeveldbDaemon
