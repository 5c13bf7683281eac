import LeveldbDaemon.Bytes
import LeveldbDaemon.Lib.Pipe

/-!
# Buffered output

The output side of a connection: `ad_buf_binary_write` (`fas/adv/io/ad_binary_write.hpp`) over
`ad_send` (`fas/adv/io/ad_sock.hpp`). A block goes to the socket at once when nothing is buffered,
and behind what is buffered otherwise; what the socket does not take stays in the buffer. How a call
of `::send` comes out is a parameter of the operation.

Both operations are taken apart once (`write_cases`, `flush_cases`). The output is a pipe for as long
as its status holds (`Carries.write`, `Carries.flush`); a block that a `socket_error` stopped is
given to it only if something was buffered already (`Output.accepts`).
-/

namespace LeveldbDaemon

open Lib

/-- What `fas::system::inet::send` makes of a call of `::send`. -/
inductive SendAnswer where
  /-- So many bytes went out; none when the peer is gone, whose error codes give `0` too. -/
  | took (n : Nat)
  /-- `-1`: the socket takes nothing now. -/
  | again
  /-- A `socket_error` is thrown. -/
  | fault
  deriving DecidableEq

/-- `_buffer` of `ad_buf_binary_write` and the status in the descriptor holder of `ad_send`. -/
structure Output where
  buffer : Bytes
  status : Bool
  deriving DecidableEq

/-- How a write ended: the bytes the socket took, and the returned value, `none` for an exception. -/
structure WriteResult where
  out : Output
  taken : Bytes
  rt : Option Int
  deriving DecidableEq

namespace Output

/-- After `set_d` and `clear`. -/
def assigned : Output := ⟨[], true⟩

/-- `S` of `ad_buf_binary_write`. -/
def sizeS : Nat := 0

def clear (o : Output) : Output := { o with buffer := [] }

/-- `ready`. -/
def ready (o : Output) : Bool := o.buffer ≠ []

/-- `ad_send`, and `ad_binary_write` around it, whose advices are stubs. -/
def send (o : Output) (d : Bytes) : SendAnswer → WriteResult
  | .took n =>
    let rt := min n d.length
    ⟨if rt = 0 then { o with status := false } else o, d.take rt, some rt⟩
  | .again => ⟨o, [], some (-1)⟩
  | .fault => ⟨o, [], none⟩

/-- `ad_buf_binary_write::operator()` of a block. -/
def write (o : Output) (a : SendAnswer) (d : Bytes) : WriteResult :=
  let o := if o.buffer ≠ [] ∨ d.length ≤ sizeS then { o with buffer := o.buffer ++ d } else o
  if o.buffer = [] then
    let r := o.send d a
    match r.rt with
    | none => r
    | some rt =>
      if 0 < rt ∧ rt < d.length then { r with out := { r.out with buffer := d.drop rt.toNat } }
      else if rt < 0 then { r with out := { r.out with buffer := d } }
      else r
  else if sizeS < o.buffer.length then
    let r := o.send o.buffer a
    match r.rt with
    | none => r
    | some rt =>
      if rt = o.buffer.length then { r with out := { r.out with buffer := [] } }
      else if 0 < rt then { r with out := { r.out with buffer := o.buffer.drop rt.toNat } }
      else if rt = 0 then { r with out := { r.out with buffer := [] } }
      else r
  else ⟨o, [], some sizeS⟩

/-- `ad_buf_binary_write::operator()` without a block: what is buffered is written. -/
def flush (o : Output) (a : SendAnswer) : WriteResult :=
  if o.buffer = [] then ⟨o, [], some (-1)⟩
  else
    let r := o.send o.buffer a
    match r.rt with
    | none => r
    | some rt =>
      if rt = o.buffer.length then { r with out := { r.out with buffer := [] } }
      else if 0 < rt then { r with out := { r.out with buffer := o.buffer.drop rt.toNat } }
      else r

/-! ## How an operation ends -/

section Cases

variable (o : Output) (a : SendAnswer) (d : Bytes)

/-- How a call of `send` comes out. -/
theorem send_cases :
    (∃ k, 0 < k ∧ k ≤ d.length ∧ o.send d a = ⟨o, d.take k, some k⟩) ∨
    ((a = .took 0 ∨ d = []) ∧ o.send d a = ⟨{ o with status := false }, [], some 0⟩) ∨
    (a = .again ∧ o.send d a = ⟨o, [], some (-1)⟩) ∨
    (a = .fault ∧ o.send d a = ⟨o, [], none⟩) := by
  cases a with
  | took n =>
    by_cases hk : min n d.length = 0
    · have hnone : n = 0 ∨ d.length = 0 := by omega
      exact .inr (.inl ⟨hnone.imp (congrArg _) List.eq_nil_of_length_eq_zero, by simp [send, hk]⟩)
    · exact .inl ⟨min n d.length, Nat.pos_of_ne_zero hk, Nat.min_le_right _ _, by simp [send, hk]⟩
  | again => exact .inr (.inr (.inl ⟨rfl, rfl⟩))
  | fault => exact .inr (.inr (.inr ⟨rfl, rfl⟩))

/-- **What a write can do.** The socket takes a beginning of what is to be written and the rest is
buffered, or it is closed and everything is dropped, or it takes nothing now, or the call throws. -/
theorem write_cases :
    (∃ k, 0 < k ∧ k ≤ (o.buffer ++ d).length ∧
      o.write a d = ⟨{ o with buffer := (o.buffer ++ d).drop k }, (o.buffer ++ d).take k, some k⟩) ∨
    ((a = .took 0 ∨ o.buffer ++ d = []) ∧ o.write a d = ⟨⟨[], false⟩, [], some 0⟩) ∨
    (a = .again ∧ o.write a d = ⟨{ o with buffer := o.buffer ++ d }, [], some (-1)⟩) ∨
    (a = .fault ∧ o.write a d =
      ⟨{ o with buffer := if o.buffer = [] then [] else o.buffer ++ d }, [], none⟩) := by
  obtain ⟨buffer, status⟩ := o
  by_cases hbuf : buffer = []
  · subst hbuf
    have hkeep : (if ([] : Bytes) ≠ [] ∨ d.length ≤ sizeS then
        (⟨[] ++ d, status⟩ : Output) else ⟨[], status⟩) = ⟨[], status⟩ := by
      split_ifs with h
      · rw [List.length_eq_zero_iff.1 (Nat.le_zero.1 (h.resolve_left fun h => h rfl))]
        rfl
      · rfl
    simp only [write, hkeep, if_true]
    rw [List.nil_append]
    rcases send_cases ⟨[], status⟩ a d with ⟨k, hk, hle, h⟩ | ⟨ha, h⟩ | ⟨ha, h⟩ | ⟨ha, h⟩
    · refine .inl ⟨k, hk, hle, ?_⟩
      rw [h]
      by_cases hlt : k < d.length
      · simp [hk, hlt]
      · have hall : k = d.length := by omega
        simp [hall]
    · exact .inr (.inl ⟨ha, by simp [h]⟩)
    · exact .inr (.inr (.inl ⟨ha, by simp [h]⟩))
    · exact .inr (.inr (.inr ⟨ha, by simp [h]⟩))
  · have hall : buffer ++ d ≠ [] := by simp [hbuf]
    have hpos : sizeS < (buffer ++ d).length := List.length_pos_iff.2 hall
    have hkeep : (if buffer ≠ [] ∨ d.length ≤ sizeS then
        (⟨buffer ++ d, status⟩ : Output) else ⟨buffer, status⟩) = ⟨buffer ++ d, status⟩ :=
      if_pos (.inl hbuf)
    simp only [write, hkeep, if_neg hall, if_pos hpos]
    rcases send_cases ⟨buffer ++ d, status⟩ a (buffer ++ d) with
      ⟨k, hk, hle, h⟩ | ⟨ha, h⟩ | ⟨ha, h⟩ | ⟨ha, h⟩
    · refine .inl ⟨k, hk, hle, ?_⟩
      rw [h]
      by_cases hlen : k = (buffer ++ d).length
      · simp [hlen]
      · have hne : (k : Int) ≠ ((buffer ++ d).length : Int) := by exact_mod_cast hlen
        simp only [hne, if_false, Int.natCast_pos.2 hk, if_true, Int.toNat_natCast]
    · refine .inr (.inl ⟨ha, ?_⟩)
      rw [h]
      have hne : (0 : Int) ≠ ((buffer ++ d).length : Int) := by
        have : ((buffer ++ d).length : Int) > 0 := by exact_mod_cast hpos
        omega
      simp only [hne, if_false, lt_irrefl, if_true]
    · refine .inr (.inr (.inl ⟨ha, ?_⟩))
      rw [h]
      have hne : (-1 : Int) ≠ ((buffer ++ d).length : Int) := by omega
      simp only [hne, if_false]
      rfl
    · exact .inr (.inr (.inr ⟨ha, by simp [h, hbuf]⟩))

/-- **What writing the buffer can do.** A closed socket leaves it as it is. -/
theorem flush_cases :
    (o.buffer = [] ∧ o.flush a = ⟨o, [], some (-1)⟩) ∨
    (∃ k, 0 < k ∧ k ≤ o.buffer.length ∧
      o.flush a = ⟨{ o with buffer := o.buffer.drop k }, o.buffer.take k, some k⟩) ∨
    (a = .took 0 ∧ o.flush a = ⟨{ o with status := false }, [], some 0⟩) ∨
    (a = .again ∧ o.buffer ≠ [] ∧ o.flush a = ⟨o, [], some (-1)⟩) ∨
    (a = .fault ∧ o.buffer ≠ [] ∧ o.flush a = ⟨o, [], none⟩) := by
  by_cases hbuf : o.buffer = []
  · exact .inl ⟨hbuf, by rw [flush, if_pos hbuf]⟩
  · have hpos : 0 < o.buffer.length := List.length_pos_iff.2 hbuf
    simp only [flush, if_neg hbuf]
    rcases send_cases o a o.buffer with ⟨k, hk, hle, h⟩ | ⟨ha, h⟩ | ⟨ha, h⟩ | ⟨ha, h⟩
    · refine .inr (.inl ⟨k, hk, hle, ?_⟩)
      rw [h]
      by_cases hlen : k = o.buffer.length
      · simp [hlen]
      · have hne : (k : Int) ≠ (o.buffer.length : Int) := by exact_mod_cast hlen
        simp only [hne, if_false, Int.natCast_pos.2 hk, if_true, Int.toNat_natCast]
    · refine .inr (.inr (.inl ⟨ha.resolve_right hbuf, ?_⟩))
      rw [h]
      have hne : (0 : Int) ≠ (o.buffer.length : Int) := by omega
      simp only [hne, if_false, lt_irrefl]
    · refine .inr (.inr (.inr (.inl ⟨ha, hbuf, ?_⟩)))
      rw [h]
      have hne : (-1 : Int) ≠ (o.buffer.length : Int) := by omega
      simp only [hne, if_false]
      rfl
    · exact .inr (.inr (.inr (.inr ⟨ha, hbuf, by rw [h]⟩)))

end Cases

section Open

variable (o : Output) {a : SendAnswer} {d : Bytes}

/-- The output is closed by a peer that is gone, and by writing nothing. -/
theorem write_status (ha : a ≠ .took 0) (hd : d ≠ []) : (o.write a d).out.status = o.status := by
  rcases o.write_cases a d with ⟨k, -, -, hw⟩ | ⟨hnone, -⟩ | ⟨-, hw⟩ | ⟨-, hw⟩
  · rw [hw]
  · exact absurd (hnone.resolve_left ha) (by simp [hd])
  · rw [hw]
  · rw [hw]

theorem flush_status (ha : a ≠ .took 0) : (o.flush a).out.status = o.status := by
  rcases o.flush_cases a with ⟨-, hw⟩ | ⟨k, -, -, hw⟩ | ⟨hnone, -⟩ | ⟨-, -, hw⟩ | ⟨-, -, hw⟩
  · rw [hw]
  · rw [hw]
  · exact absurd hnone ha
  · rw [hw]
  · rw [hw]

/-- A socket that takes something gets something. -/
theorem flush_taken {k : Nat} (hk : 0 < k) (hbuf : o.buffer ≠ []) : (o.flush (.took k)).taken ≠ [] := by
  rcases o.flush_cases (.took k) with ⟨hempty, -⟩ | ⟨k', hk', hle, hw⟩ | ⟨hnone, -⟩ | ⟨hno, -⟩ | ⟨hno, -⟩
  · exact absurd hempty hbuf
  · rw [hw]
    intro hnil
    have hlen := congrArg List.length hnil
    rw [List.length_take, List.length_nil] at hlen
    omega
  · cases hnone
    exact absurd hk (lt_irrefl _)
  · cases hno
  · cases hno

end Open

/-! ## The output is a pipe -/

/-- The block of a write was put out or buffered: the call returned, or something was buffered when it
threw. -/
def accepts (o : Output) (r : WriteResult) : Bool := r.rt.isSome || o.ready

variable {o : Output} {a : SendAnswer} {d given sent : Bytes}

/-- **Writing a block.** As long as the peer is not gone, what was given before and the accepted block
have gone out or are buffered. -/
theorem carries_write (h : Carries given sent o.buffer) (hs : (o.write a d).out.status = true) :
    Carries (if o.accepts (o.write a d) then given ++ d else given) (sent ++ (o.write a d).taken)
      (o.write a d).out.buffer := by
  rcases o.write_cases a d with ⟨k, -, -, hw⟩ | ⟨-, hw⟩ | ⟨-, hw⟩ | ⟨-, hw⟩ <;> rw [hw] at hs ⊢
  · have hput : Carries (given ++ d) sent (o.buffer ++ d) := h.put d
    simpa [accepts] using hput.take k
  · cases hs
  · simpa [accepts] using h.put d
  · by_cases hbuf : o.buffer = []
    · rw [hbuf] at h
      simpa [accepts, ready, hbuf] using h
    · simpa [accepts, ready, hbuf] using h.put d

/-- A write that finds the peer gone puts nothing out and keeps nothing. -/
theorem write_closed (ho : o.status = true) (h : (o.write a d).out.status = false) :
    o.write a d = ⟨⟨[], false⟩, [], some 0⟩ := by
  rcases o.write_cases a d with ⟨k, -, -, hw⟩ | ⟨-, hw⟩ | ⟨-, hw⟩ | ⟨-, hw⟩
  · simp [hw, ho] at h
  · exact hw
  · simp [hw, ho] at h
  · simp [hw, ho] at h

theorem write_fault (h : (o.write a d).rt = none) : a = .fault ∧ (o.write a d).out.status = o.status ∧
    ((o.write a d).out.buffer = [] ↔ o.buffer = []) := by
  rcases o.write_cases a d with ⟨k, -, -, hw⟩ | ⟨-, hw⟩ | ⟨-, hw⟩ | ⟨ha, hw⟩
  · simp [hw] at h
  · simp [hw] at h
  · simp [hw] at h
  · refine ⟨ha, by rw [hw], ?_⟩
    rw [hw]
    by_cases hbuf : o.buffer = [] <;> simp [hbuf]

theorem flush_fault (h : (o.flush a).rt = none) : a = .fault ∧ o.flush a = ⟨o, [], none⟩ := by
  rcases o.flush_cases a with ⟨-, hw⟩ | ⟨k, -, -, hw⟩ | ⟨-, hw⟩ | ⟨-, -, hw⟩ | ⟨ha, -, hw⟩
  · simp [hw] at h
  · simp [hw] at h
  · simp [hw] at h
  · simp [hw] at h
  · exact ⟨ha, hw⟩

/-- **Writing the buffer.** -/
theorem carries_flush (h : Carries given sent o.buffer) :
    Carries given (sent ++ (o.flush a).taken) (o.flush a).out.buffer := by
  rcases o.flush_cases a with ⟨hbuf, hw⟩ | ⟨k, -, -, hw⟩ | ⟨-, hw⟩ | ⟨-, -, hw⟩ | ⟨-, -, hw⟩ <;> rw [hw]
  · simpa using h
  · exact h.take k
  · simpa using h
  · simpa using h
  · simpa using h

/-- Writing the buffer to a peer that is gone keeps it. -/
theorem flush_closed (ho : o.status = true) (h : (o.flush a).out.status = false) :
    o.flush a = ⟨{ o with status := false }, [], some 0⟩ := by
  rcases o.flush_cases a with ⟨-, hw⟩ | ⟨k, -, -, hw⟩ | ⟨-, hw⟩ | ⟨-, -, hw⟩ | ⟨-, -, hw⟩
  · simp [hw, ho] at h
  · simp [hw, ho] at h
  · exact hw
  · simp [hw, ho] at h
  · simp [hw, ho] at h

end Output

end LeveldbDaemon
