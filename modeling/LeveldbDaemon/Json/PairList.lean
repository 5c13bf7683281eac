import LeveldbDaemon.Json.RoundTrip

/-!
# Pair lists

What `valmap2str_json` writes of a list of well-formed texts is read back as that list, in its
order, and the reader stops right behind it. The codec of `RoundTrip` already says which lists
come back; what is added here is the countdown. `unserialize` takes an `int n = -1` and its
loops stop at `n == 0`. It loses one for a byte that is put out, or nothing, so in a string below
`2^31` bytes it stays between `-2^31` and `-1` in every round.
-/

namespace LeveldbDaemon.Json

open Lib

/-! ## The countdown -/

/-- A round takes at most as much off the countdown as it puts out. -/
theorem unserializeQuoted_countdown (byRef : Bool) :
    ∀ (rounds : Nat) (text out : Bytes) (n : Int) (st : CharState), n < 0 →
      unserializeQuoted byRef rounds ⟨out, text, n⟩ = .ok st →
      st.n < 0 ∧ n + out.length ≤ st.n + st.out.length := by
  intro rounds
  induction rounds with
  | zero =>
    intro text out n st hn h
    cases h
    exact ⟨hn, le_rfl⟩
  | succ rounds ih =>
    intro text out n st hn h
    cases text with
    | nil =>
      cases h
      exact ⟨hn, le_rfl⟩
    | cons b text =>
      by_cases hb : b = chQuote
      · subst hb
        simp only [unserializeQuoted, true_or, if_true, Except.ok.injEq] at h
        subst h
        exact ⟨hn, le_rfl⟩
      · obtain ⟨f, hf, hround⟩ := unserializeQuoted_round byRef rounds text out hb hn
        rw [hround] at h
        obtain ⟨⟨c, text'⟩, -, h⟩ := of_bind_ok h
        obtain ⟨hneg, hle⟩ := ih text' (out ++ c) (f c) st (hf c).1 h
        refine ⟨hneg, le_trans ?_ hle⟩
        have hc := (hf c).2
        rw [List.length_append, Nat.cast_add]
        omega

/-- What the rounds have put out so far is the beginning of what the string reads as. -/
theorem prefix_of_rounds (byRef : Bool) {rest : Bytes} :
    ∀ (rounds : Nat) (text out o : Bytes) (n : Int) (st : CharState), n < 0 →
      Scan text o rest → unserializeQuoted byRef rounds ⟨out, text, n⟩ = .ok st →
      st.out.length ≤ out.length + o.length := by
  intro rounds
  induction rounds with
  | zero =>
    intro text out o n st _ _ h
    cases h
    exact Nat.le_add_right _ _
  | succ rounds ih =>
    intro text out o n st hn hscan h
    cases hscan with
    | close =>
      simp only [unserializeQuoted, true_or, if_true, Except.ok.injEq] at h
      subst h
      exact Nat.le_add_right _ _
    | @char b text text' c o _ hb hc hscan =>
      obtain ⟨f, hf, hround⟩ := unserializeQuoted_round byRef rounds text out hb hn
      rw [hround, hc] at h
      have hle := ih text' (out ++ c) o (f c) st (hf c).1 hscan h
      rw [List.length_append] at hle ⊢
      omega

/-- In no round does the countdown of a reading leave the negative half of `int`. -/
def CountsDown (byRef : Bool) (text : Bytes) : Prop :=
  ∀ rounds st, unserializeQuoted byRef rounds ⟨[], text, -1⟩ = .ok st → -2 ^ 31 ≤ st.n ∧ st.n < 0

theorem countsDown_of_scan {byRef : Bool} {text out rest : Bytes} (h : Scan text out rest)
    (hlen : out.length < 2 ^ 31) : CountsDown byRef text := by
  intro rounds st hst
  obtain ⟨hneg, hle⟩ := unserializeQuoted_countdown byRef rounds text [] (-1) st (by decide) hst
  have hout := prefix_of_rounds byRef rounds text [] out (-1) st (by decide) h hst
  rw [List.length_nil] at hle hout
  omega

/-! ## The round trip -/

/-- A well-formed text without zero bytes, short enough for the countdown. -/
structure Transportable (v : Bytes) : Prop where
  wellFormed : WellFormedUtf8 v
  zero_notMem : 0 ∉ v
  length_lt : v.length < 2 ^ 31

theorem Transportable.portable {fmt : Format} {v : Bytes} (h : Transportable v) :
    portable fmt 0 v = true :=
  portable_of_wellFormed h.wellFormed h.zero_notMem

theorem Transportable.countsDown {fmt : Format} {v : Bytes} (h : Transportable v) (byRef : Bool)
    (tail : Bytes) : CountsDown byRef (quoted fmt v tail) :=
  countsDown_of_scan (scan_of_portable h.portable) h.length_lt

/-- **A pair list comes back, and its reader stops behind it.** Repeated keys are kept; both
spellings of an empty list read as the empty list. -/
theorem decodeValmap2str_encodeValmap2str {data : List (Bytes × Bytes)}
    (h : ∀ p ∈ data, Transportable p.1 ∧ Transportable p.2) (rest : Bytes) :
    decodeValmap2str (encodeValmap2str data ++ rest) = .ok (data, rest) ∧
      (∀ p ∈ data, ∀ tail, CountsDown true (quoted keyFormat p.1 tail) ∧
        CountsDown false (quoted valueFormat p.2 tail)) ∧
      decodeValmap2str (chLBrace :: chRBrace :: rest) = .ok ([], rest) ∧
      decodeValmap2str (chLBracket :: chRBracket :: rest) = .ok ([], rest) := by
  refine ⟨?_, ?_, ?_, rfl⟩
  · refine decodeValmap2str_encode_iff.2 ⟨?_, rfl⟩
    intro p hp
    exact ⟨(h p hp).1.portable, (h p hp).2.portable⟩
  · intro p hp tail
    exact ⟨(h p hp).1.countsDown true tail, (h p hp).2.countsDown false tail⟩
  · have hempty : encodeValmap2str [] ++ rest = chLBrace :: chRBrace :: rest := rfl
    rw [← hempty]
    exact decodeValmap2str_encode_iff.2 ⟨fun p hp => absurd hp List.not_mem_nil, rfl⟩

/-- Twice one key, with a quote, a control character and a character of four bytes. -/
theorem decodeValmap2str_repeated_key :
    (∀ p ∈ [(ascii "a\"", utf8Text ['\u00e9', '\u0001']), (ascii "a\"", utf8Text ['😀'])],
      Transportable p.1 ∧ Transportable p.2) ∧
    decodeValmap2str (encodeValmap2str
      [(ascii "a\"", utf8Text ['\u00e9', '\u0001']), (ascii "a\"", utf8Text ['😀'])] ++
        ascii ", x") =
      .ok ([(ascii "a\"", utf8Text ['\u00e9', '\u0001']), (ascii "a\"", utf8Text ['😀'])],
        ascii ", x") := by
  have h : ∀ p ∈ [(ascii "a\"", utf8Text ['\u00e9', '\u0001']), (ascii "a\"", utf8Text ['😀'])],
      Transportable p.1 ∧ Transportable p.2 := by
    intro p hp
    rcases List.mem_cons.1 hp with rfl | hp
    · exact ⟨⟨⟨['a', '"'], by decide⟩, by decide, by decide⟩, ⟨⟨_, rfl⟩, by decide, by decide⟩⟩
    · obtain rfl := List.mem_singleton.1 hp
      exact ⟨⟨⟨['a', '"'], by decide⟩, by decide, by decide⟩, ⟨⟨_, rfl⟩, by decide, by decide⟩⟩
  exact ⟨h, (decodeValmap2str_encodeValmap2str h (ascii ", x")).1⟩

end LeveldbDaemon.Json
