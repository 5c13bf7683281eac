import LeveldbDaemon.Reads
import Mathlib.Data.List.TakeWhile

/-!
# `get_range`: the window and its admission

The loop of `methods::get_range` counts over the entries from `from` on, and one counter decides
both what is skipped and when to stop. Over an ordered database it returns a window of the range:
the entries between `from` and `to`, without the first `skip` and at most `limit` of them.

The check in front of it means to bound the window by 11000 entries, and bounds the sum of two
`int`s that it has bounded from below only. It does what it means to exactly when that sum is
below `2^31`.
-/

namespace LeveldbDaemon

open Lib

/-! ## The window -/

/-- The entries with a key from `from_` to `to_`; an empty `to_` is no bound. -/
def entriesWithin (db : Db) (from_ to_ : Bytes) : List (Bytes × Bytes) :=
  db.entries.filter fun e => from_ ≤ e.1 ∧ (to_ = [] ∨ e.1 ≤ to_)

/-- At most `limit` of them, the first `skip` left out. -/
def window (db : Db) (from_ to_ : Bytes) (limit skip : Nat) : Valmap2str :=
  ((entriesWithin db from_ to_).drop skip).take limit

theorem mem_entriesWithin {db : Db} {from_ to_ : Bytes} {e : Bytes × Bytes} :
    e ∈ entriesWithin db from_ to_ ↔
      db.get e.1 = some e.2 ∧ from_ ≤ e.1 ∧ (to_ = [] ∨ e.1 ≤ to_) := by
  rw [entriesWithin, List.mem_filter, decide_eq_true_eq]
  exact and_congr_left fun _ => OrdMap.mem_entries_iff

theorem sorted_window (db : Db) (from_ to_ : Bytes) (limit skip : Nat) :
    (window db from_ to_ limit skip).Pairwise fun a b => a.1 < b.1 := by
  have hsorted := db.sorted.filter fun e => decide (from_ ≤ e.1 ∧ (to_ = [] ∨ e.1 ≤ to_))
  exact hsorted.sublist ((List.take_sublist _ _).trans (List.drop_sublist _ _))

/-- A window is its first `a` entries and the window behind them. -/
theorem window_add (db : Db) (from_ to_ : Bytes) (a b skip : Nat) :
    window db from_ to_ (a + b) skip =
      window db from_ to_ a skip ++ window db from_ to_ b (skip + a) := by
  rw [window, window, window, List.take_add, List.drop_drop]

/-! ## The loop -/

theorem takeWhile_le_eq_filter {l : List (Bytes × Bytes)}
    (hs : l.Pairwise fun a b => a.1 < b.1) (k : Bytes) :
    (l.takeWhile fun e => e.1 ≤ k) = l.filter fun e => e.1 ≤ k := by
  induction l with
  | nil => rfl
  | cons x l ih =>
    obtain ⟨hx, hl⟩ := List.pairwise_cons.1 hs
    by_cases hk : x.1 ≤ k
    · simp [hk, ih hl]
    · have hnone : l.filter (fun e => e.1 ≤ k) = [] := by
        refine List.filter_eq_nil_iff.2 ?_
        intro e he
        simpa using (not_le.1 hk).trans (hx e he)
      rw [List.takeWhile_cons_of_neg (by simpa using hk), List.filter_cons_of_neg (by simpa using hk),
        hnone]

/-- Where the iterator is put. -/
theorem seek_pos_eq_filter (db : Db) (from_ : Bytes) :
    (if from_.length ≠ 0 then (newIterator db).seek from_ else (newIterator db).seekToFirst).pos =
      db.entries.filter fun e => from_ ≤ e.1 := by
  split_ifs with h
  · exact dropWhile_lt_eq_filter db.sorted from_
  · obtain rfl : from_ = [] := List.length_eq_zero_iff.1 (not_not.1 h)
    refine (List.filter_eq_self.2 ?_).symm
    intro e _
    exact decide_eq_true (nil_le e.1)

/-- The entries the loop's condition on `to` lets pass, counted or not. -/
theorem takeWhile_to_eq_filter {l : List (Bytes × Bytes)}
    (hs : l.Pairwise fun a b => a.1 < b.1) (to_ : Bytes) :
    (l.takeWhile fun e => to_.isEmpty ∨ e.1 ≤ to_) = l.filter fun e => to_ = [] ∨ e.1 ≤ to_ := by
  cases to_ with
  | nil => simp [List.takeWhile_eq_self_iff]
  | cons b to_ =>
    have h := takeWhile_le_eq_filter hs (b :: to_)
    simpa using h

/-- The loop from a count on: it goes up to `totalLimit` and keeps what is at or past `skip`. -/
theorem getRangeLoop_eq (cmd : GetRange) (totalLimit : Int32) :
    ∀ (l : List (Bytes × Bytes)) (count : Int32) (result : Valmap2str),
      0 ≤ count.toInt → 0 ≤ cmd.skip.toInt →
      getRangeLoop cmd totalLimit l count result = result ++
        (((l.takeWhile fun e => cmd.to_.isEmpty ∨ e.1 ≤ cmd.to_).take
          (totalLimit.toInt - count.toInt).toNat).drop (cmd.skip.toInt - count.toInt).toNat) := by
  intro l
  induction l with
  | nil => simp [getRangeLoop]
  | cons e l ih =>
    intro count result hcount hskip
    rw [getRangeLoop]
    by_cases hto : cmd.to_.isEmpty ∨ e.1 ≤ cmd.to_
    · by_cases hlt : count < totalLimit
      · have hcons : ((e :: l).takeWhile fun e => cmd.to_.isEmpty ∨ e.1 ≤ cmd.to_) =
            e :: l.takeWhile fun e => cmd.to_.isEmpty ∨ e.1 ≤ cmd.to_ :=
          List.takeWhile_cons_of_pos (decide_eq_true hto)
        rw [if_pos ⟨hto, hlt⟩, hcons]
        have hbound := totalLimit.toInt_lt
        rw [Int32.lt_iff_toInt_lt] at hlt
        have hsucc : (count + 1).toInt = count.toInt + 1 := by
          rw [Int32.toInt_add, Int32.toInt_one, Int.bmod_eq_of_le (by omega) (by omega)]
        rw [ih (count + 1) _ (by omega) hskip, hsucc]
        have htake : (totalLimit.toInt - count.toInt).toNat =
            (totalLimit.toInt - (count.toInt + 1)).toNat + 1 := by omega
        rw [htake, List.take_succ_cons]
        by_cases hkeep : cmd.skip ≤ count
        · rw [if_pos hkeep]
          rw [Int32.le_iff_toInt_le] at hkeep
          have h₁ : (cmd.skip.toInt - count.toInt).toNat = 0 := by omega
          have h₂ : (cmd.skip.toInt - (count.toInt + 1)).toNat = 0 := by omega
          rw [h₁, h₂, List.drop_zero, List.drop_zero, List.append_assoc, List.singleton_append]
        · rw [if_neg hkeep]
          rw [Int32.le_iff_toInt_le] at hkeep
          have hdrop : (cmd.skip.toInt - count.toInt).toNat =
              (cmd.skip.toInt - (count.toInt + 1)).toNat + 1 := by omega
          rw [hdrop, List.drop_succ_cons]
      · rw [if_neg fun h => hlt h.2]
        rw [Int32.lt_iff_toInt_lt] at hlt
        have htake : (totalLimit.toInt - count.toInt).toNat = 0 := by omega
        rw [htake, List.take_zero, List.drop_nil, List.append_nil]
    · have hnone : ((e :: l).takeWhile fun e => cmd.to_.isEmpty ∨ e.1 ≤ cmd.to_) = [] :=
        List.takeWhile_cons_of_neg (by simpa using hto)
      rw [if_neg fun h => hto h.1, hnone, List.take_nil, List.drop_nil, List.append_nil]

/-! ## What is returned -/

theorem toInt_add_of_small {a b : Int32} (ha : 0 ≤ a.toInt) (hb : 0 ≤ b.toInt)
    (h : a.toInt + b.toInt ≤ 11000) : (a + b).toInt = a.toInt + b.toInt := by
  rw [Int32.toInt_add, Int.bmod_eq_of_le (by omega) (by omega)]

/-- A request within the bounds returns its window. -/
theorem getRangeRequest_eq_window (memory : Memory) (db : Db) (cmd : GetRange)
    (hlimit : 0 ≤ cmd.limit.toInt) (hskip : 0 ≤ cmd.skip.toInt)
    (hsum : cmd.limit.toInt + cmd.skip.toInt ≤ 11000) :
    getRangeRequest memory db cmd =
      .ok (some (window db cmd.from_ cmd.to_ cmd.limit.toInt.toNat cmd.skip.toInt.toNat)) := by
  have hadm : cmd.admitted = true := (admitted_iff cmd).2 (.inl ⟨hlimit, hskip, hsum⟩)
  have hres := memory.reserves_small cmd.limit.toInt.toNat (by omega)
  simp only [getRangeRequest, if_pos hadm, if_pos hres]
  rw [seek_pos_eq_filter, getRangeLoop_eq _ _ _ _ _ le_rfl hskip, List.nil_append,
    takeWhile_to_eq_filter (db.sorted.filter _), List.filter_filter, toInt_add_of_small hlimit hskip hsum]
  have hzero : (0 : Int32).toInt = 0 := rfl
  have htake : (cmd.limit.toInt + cmd.skip.toInt - (0 : Int32).toInt).toNat =
      cmd.skip.toInt.toNat + cmd.limit.toInt.toNat := by omega
  have hwithin : (db.entries.filter fun e =>
      decide (cmd.to_ = [] ∨ e.1 ≤ cmd.to_) && decide (cmd.from_ ≤ e.1)) =
        entriesWithin db cmd.from_ cmd.to_ := by
    refine List.filter_congr ?_
    intro e _
    rw [Bool.and_comm, Bool.decide_and]
  rw [hwithin, htake, hzero, sub_zero, List.drop_take, Nat.add_sub_cancel_left]
  rfl

/-- **`get_range` returns the window it is asked for**, ascending; and a window may be fetched in
two parts, the second skipping what the first returned. -/
theorem getRangeRequest_window (memory : Memory) (db : Db) (from_ to_ : Bytes) {limit skip : Int32}
    (hlimit : 0 ≤ limit.toInt) (hskip : 0 ≤ skip.toInt) (hsum : limit.toInt + skip.toInt ≤ 11000) :
    getRangeRequest memory db ⟨from_, to_, limit, skip⟩ =
        .ok (some (window db from_ to_ limit.toInt.toNat skip.toInt.toNat)) ∧
      (window db from_ to_ limit.toInt.toNat skip.toInt.toNat).Pairwise (fun x y => x.1 < y.1) ∧
      ∀ a b : Int32, 0 ≤ a.toInt → 0 ≤ b.toInt → a.toInt + b.toInt = limit.toInt →
        ∃ w₁ w₂, getRangeRequest memory db ⟨from_, to_, a, skip⟩ = .ok (some w₁) ∧
          getRangeRequest memory db ⟨from_, to_, b, skip + a⟩ = .ok (some w₂) ∧
          getRangeRequest memory db ⟨from_, to_, limit, skip⟩ = .ok (some (w₁ ++ w₂)) := by
  have hwhole := getRangeRequest_eq_window memory db ⟨from_, to_, limit, skip⟩ hlimit hskip hsum
  refine ⟨hwhole, sorted_window .., ?_⟩
  intro a b ha hb hab
  have hskipA : (skip + a).toInt = skip.toInt + a.toInt :=
    toInt_add_of_small hskip ha (by omega)
  have hfirst := getRangeRequest_eq_window memory db ⟨from_, to_, a, skip⟩ ha hskip
    (by dsimp only; omega)
  have hsecond := getRangeRequest_eq_window memory db ⟨from_, to_, b, skip + a⟩ hb
    (by dsimp only; omega) (by dsimp only; omega)
  refine ⟨_, _, hfirst, hsecond, ?_⟩
  rw [hwhole]
  dsimp only
  have hlen : limit.toInt.toNat = a.toInt.toNat + b.toInt.toNat := by omega
  have hat : (skip + a).toInt.toNat = skip.toInt.toNat + a.toInt.toNat := by omega
  rw [hlen, hat, window_add]

/-- From a key that is not there to one that is, the first entry skipped. -/
theorem getRangeRequest_window_small :
    getRangeRequest ⟨fun _ => true, fun _ _ => rfl⟩
      (OrdMap.empty.insert (ascii "ab") (ascii "1") |>.insert (ascii "b") (ascii "2")
        |>.insert (ascii "bc") (ascii "3") |>.insert (ascii "c") (ascii "4"))
      ⟨ascii "aa", ascii "bc", 5, 1⟩ =
        .ok (some [(ascii "b", ascii "2"), (ascii "bc", ascii "3")]) := by
  refine (@getRangeRequest_window _ _ (ascii "aa") (ascii "bc") 5 1 (by decide) (by decide)
    (by decide)).1.trans ?_
  have hwindow : window
      (OrdMap.empty.insert (ascii "ab") (ascii "1") |>.insert (ascii "b") (ascii "2")
        |>.insert (ascii "bc") (ascii "3") |>.insert (ascii "c") (ascii "4"))
      (ascii "aa") (ascii "bc") 5 1 = [(ascii "b", ascii "2"), (ascii "bc", ascii "3")] := by
    decide +kernel
  exact congrArg (fun l => Except.ok (some l)) hwindow

/-! ## The admission check -/

/-- `cmd.limit + cmd.skip` is computed: the two checks before it have passed. -/
def GetRange.Sums (cmd : GetRange) : Prop := ¬cmd.limit < 0 ∧ ¬cmd.skip < 0

/-- The argument of `result.reserve`; nothing is reserved behind a check that returns. -/
def GetRange.reserved (cmd : GetRange) : Option Nat :=
  if cmd.admitted then some cmd.limit.toInt.toNat else none

/-- What the checks mean to do. -/
structure GetRange.Bounded (cmd : GetRange) : Prop where
  /-- Only a request within the bound gets past them. -/
  proceeds : ∀ memory db, getRangeRequest memory db cmd ≠ .ok none ↔
    0 ≤ cmd.limit.toInt ∧ 0 ≤ cmd.skip.toInt ∧ cmd.limit.toInt + cmd.skip.toInt ≤ 11000
  /-- The sum fits an `int`. -/
  fits : cmd.Sums → -2 ^ 31 ≤ cmd.limit.toInt + cmd.skip.toInt ∧
    cmd.limit.toInt + cmd.skip.toInt < 2 ^ 31
  /-- No more than the bound is reserved. -/
  reserves : ∀ n ∈ cmd.reserved, n ≤ 11000

theorem getRangeRequest_proceeds_iff (memory : Memory) (db : Db) (cmd : GetRange) :
    getRangeRequest memory db cmd ≠ .ok none ↔ cmd.admitted = true := by
  unfold getRangeRequest
  by_cases hadm : cmd.admitted = true
  · cases hm : memory.reserves cmd.limit.toInt.toNat <;> simp [hadm]
  · simp [hadm]

theorem GetRange.sums_iff (cmd : GetRange) :
    cmd.Sums ↔ 0 ≤ cmd.limit.toInt ∧ 0 ≤ cmd.skip.toInt := by
  simp only [GetRange.Sums, Int32.lt_iff_toInt_lt, Int32.toInt_zero, not_lt]

/-- **The admission check holds exactly while the sum of two non-negative numbers is below
`2^31`.** From there on every pair is let through. -/
theorem GetRange.bounded_iff (cmd : GetRange) :
    cmd.Bounded ↔ ¬(0 ≤ cmd.limit.toInt ∧ 0 ≤ cmd.skip.toInt ∧
      2 ^ 31 ≤ cmd.limit.toInt + cmd.skip.toInt) := by
  constructor
  · rintro h ⟨hlimit, hskip, hsum⟩
    have hproceeds := (h.proceeds ⟨fun _ => true, fun _ _ => rfl⟩ OrdMap.empty).1
      ((getRangeRequest_proceeds_iff _ _ _).2 ((admitted_iff cmd).2 (.inr ⟨hlimit, hskip, hsum⟩)))
    omega
  · intro h
    have hadm : cmd.admitted = true ↔
        0 ≤ cmd.limit.toInt ∧ 0 ≤ cmd.skip.toInt ∧ cmd.limit.toInt + cmd.skip.toInt ≤ 11000 :=
      (admitted_iff cmd).trans (or_iff_left h)
    refine ⟨?_, ?_, ?_⟩
    · intro memory db
      rw [getRangeRequest_proceeds_iff, hadm]
    · intro hsums
      obtain ⟨hlimit, hskip⟩ := cmd.sums_iff.1 hsums
      omega
    · intro n hn
      rw [GetRange.reserved] at hn
      split_ifs at hn with hpass
      · obtain rfl := Option.some.inj hn
        have hbound := hadm.1 hpass
        omega
      · cases hn

/-- The largest limit and one entry skipped: the sum wraps, and room for `2^31 - 1` pairs is
reserved. -/
theorem GetRange.not_bounded : ¬∀ cmd : GetRange, cmd.Bounded := by
  intro hall
  have hreserves := (hall ⟨[], [], 2147483647, 1⟩).reserves 2147483647 rfl
  omega

end LeveldbDaemon
