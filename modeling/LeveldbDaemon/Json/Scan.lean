import LeveldbDaemon.Json.Value
import LeveldbDaemon.Lib.Run

/-!
# Reading a quoted string

The loops of both string decoders come down to one thing: character by character, a character
being a two-character escape, a four-digit escape, or a first byte with as many bytes after it as
it announces, whatever these are. `Scan` says so without the countdown, the accumulator and the
fuel, and `closeQuoted_iff` connects it to the decoders.
-/

namespace LeveldbDaemon.Json

/-! ## One character -/

/-- How many bytes a first byte takes along. -/
def trailing (b : UInt8) : Option Nat :=
  if b &&& 128 = 0 then some 0
  else if b &&& 224 = 192 then some 1
  else if b &&& 240 = 224 then some 2
  else if b &&& 248 = 240 then some 3
  else none

/-- A first byte and what it takes along. -/
def scanSymbol : Decoder Bytes
  | [] => .error .unexpectedEndFragment
  | b :: rest =>
    match trailing b with
    | none => .error .invalidJsonString
    | some k =>
      if k ≤ rest.length then .ok (b :: rest.take k, rest.drop k) else .error .unexpectedEndFragment

/-- The character a two-character escape stands for. -/
def unescape (b : UInt8) : Option UInt8 :=
  if b = chQuote ∨ b = chBackslash ∨ b = chSlash then some b
  else if b = 0x74 then some chTab
  else if b = 0x62 then some chBs
  else if b = 0x72 then some chCr
  else if b = 0x6e then some chLf
  else if b = 0x66 then some chFf
  else none

/-- The UTF-8 form of a 16-bit number. -/
def uhexBytes (hex : Nat) : Bytes :=
  if hex ≤ 0x7f then [hex.toUInt8]
  else if hex ≤ 0x7ff then [192 ||| (hex / 64).toUInt8, 128 ||| (hex.toUInt8 &&& 63)]
  else [224 ||| (hex / 4096).toUInt8, 128 ||| ((hex / 64).toUInt8 &&& 63),
    128 ||| (hex.toUInt8 &&& 63)]

/-- Four hexadecimal digits. -/
def scanUhex : Decoder Bytes := fun beg => do
  let (a, r₁) ← takeHex beg
  let (b, r₂) ← takeHex r₁
  let (c, r₃) ← takeHex r₂
  let (d, rest) ← takeHex r₃
  return (uhexBytes (a * 4096 + b * 256 + c * 16 + d), rest)

/-- What follows a backslash. -/
def scanEscape : Decoder Bytes
  | [] => .error .unexpectedEndFragment
  | b :: rest =>
    match unescape b with
    | some c => .ok ([c], rest)
    | none => if b = 0x75 then scanUhex rest else .error .invalidJsonString

/-- One character of a quoted string. -/
def scanChar : Decoder Bytes
  | [] => .error .unexpectedEndFragment
  | b :: rest => if b = chBackslash then scanEscape rest else scanSymbol (b :: rest)

/-- A text up to its closing quote reads as `out`, and `rest` comes after the quote. -/
inductive Scan : Bytes → Bytes → Bytes → Prop
  | close (rest : Bytes) : Scan (chQuote :: rest) [] rest
  | char {b : UInt8} {text text' c out rest : Bytes} (hb : b ≠ chQuote)
      (hc : scanChar (b :: text) = .ok (c, text')) (h : Scan text' out rest) :
      Scan (b :: text) (c ++ out) rest

theorem Scan.unique {text out out' rest rest' : Bytes} (h : Scan text out rest)
    (h' : Scan text out' rest') : out = out' ∧ rest = rest' := by
  induction h generalizing out' rest' with
  | close rest =>
    cases h' with
    | close => exact ⟨rfl, rfl⟩
    | char hb => exact absurd rfl hb
  | char hb hc _ ih =>
    cases h' with
    | close => exact absurd rfl hb
    | char _ hc' h' =>
      cases hc.symm.trans hc'
      obtain ⟨rfl, rfl⟩ := ih h'
      exact ⟨rfl, rfl⟩

/-! ## The decoders' helpers

The countdown starts at `-1` and decreases, so it stays below zero and stops nothing. -/

theorem symbolCopy_eq : ∀ (i : Nat) (out beg : Bytes) (n : Int), n < 0 →
    symbolCopy i ⟨out, beg, n⟩ =
      if i ≤ beg.length then .ok ⟨out ++ beg.take i, beg.drop i, n - i⟩
      else .error .unexpectedEndFragment
  | 0, out, beg, n, _ => by simp [symbolCopy]
  | i + 1, out, [], n, hn => by simp [symbolCopy, hn.ne]
  | i + 1, out, b :: beg, n, hn => by
    have ih := symbolCopy_eq i (out ++ [b]) beg (n - 1) (by omega)
    simp only [symbolCopy, hn.ne, if_false, ih, List.length_cons, Nat.add_le_add_iff_right,
      List.take_succ_cons, List.drop_succ_cons, List.append_assoc, List.singleton_append]
    split_ifs
    · congr 2
      push_cast
      omega
    · rfl

theorem unserializeSymbol_eq (out beg : Bytes) {n : Int} (hn : n < 0) :
    unserializeSymbol ⟨out, beg, n⟩ =
      (scanSymbol beg).map fun r => ⟨out ++ r.1, r.2, n - r.1.length⟩ := by
  cases beg with
  | nil => rfl
  | cons b rest =>
    have hcopy (k : Nat) : symbolCopy (k + 1) ⟨out, b :: rest, n⟩ =
        (if k ≤ rest.length then .ok (b :: rest.take k, rest.drop k)
          else .error .unexpectedEndFragment : Except JsonError (Bytes × Bytes)).map
          fun r => ⟨out ++ r.1, r.2, n - r.1.length⟩ := by
      rw [symbolCopy_eq _ _ _ _ hn]
      simp only [List.length_cons, Nat.add_le_add_iff_right, List.take_succ_cons,
        List.drop_succ_cons]
      split_ifs with hk
      · simp [Except.map, hk]
      · rfl
    simp only [unserializeSymbol, scanSymbol, trailing]
    split_ifs
    · simp [Except.map]
    · exact hcopy 1
    · exact hcopy 2
    · exact hcopy 3
    · rfl

theorem pushBytes_eq : ∀ (bs out : Bytes) (n : Int), n < 0 →
    pushBytes out n bs = .ok (out ++ bs, n - bs.length)
  | [], out, n, _ => by simp [pushBytes]
  | [b], out, n, _ => by simp [pushBytes]
  | b :: c :: bs, out, n, hn => by
    have ih := pushBytes_eq (c :: bs) (out ++ [b]) (n - 1) (by omega)
    have hne : ¬n - 1 = 0 := by omega
    simp only [pushBytes, hne, if_false, ih, List.append_assoc, List.singleton_append,
      List.length_cons]
    congr 2
    push_cast
    omega

theorem unserializeUhex_eq (out beg : Bytes) {n : Int} (hn : n < 0) :
    unserializeUhex ⟨out, beg, n⟩ =
      (scanUhex beg).map fun r => ⟨out ++ r.1, r.2, n - r.1.length⟩ := by
  have hpush (hex : Nat) : pushBytes out n (uhexBytes hex) = _ := pushBytes_eq _ out n hn
  unfold uhexBytes at hpush
  simp only [unserializeUhex, scanUhex, hpush]
  cases takeHex beg with
  | error e => rfl
  | ok r₁ =>
    simp only [bind, Except.bind]
    cases takeHex r₁.2 with
    | error e => rfl
    | ok r₂ =>
      simp only
      cases takeHex r₂.2 with
      | error e => rfl
      | ok r₃ =>
        simp only
        cases takeHex r₃.2 with
        | error e => rfl
        | ok r₄ => rfl

theorem unserializeEscape_eq (out beg : Bytes) {n : Int} (hn : n < 0) :
    unserializeEscape ⟨out, beg, n⟩ =
      (scanEscape beg).map fun r => ⟨out ++ r.1, r.2, n - r.1.length⟩ := by
  cases beg with
  | nil => rfl
  | cons b rest =>
    simp only [unserializeEscape, scanEscape, unescape]
    split_ifs <;> first | rfl | exact unserializeUhex_eq out rest hn

/-! ## The loop -/

theorem takeHex_length {beg rest : Bytes} {d : Nat} (h : takeHex beg = .ok (d, rest)) :
    rest.length < beg.length := by
  cases beg with
  | nil => cases h
  | cons c r =>
    simp only [takeHex] at h
    cases hd : toUShort c with
    | error e => simp [hd, Except.map] at h
    | ok v =>
      simp only [hd, Except.map, Except.ok.injEq, Prod.mk.injEq] at h
      simp [← h.2]

/-- Every character takes something from the text. -/
theorem scanChar_length {b : UInt8} {text c text' : Bytes}
    (h : scanChar (b :: text) = .ok (c, text')) : text'.length ≤ text.length := by
  simp only [scanChar] at h
  split_ifs at h with hb
  · cases text with
    | nil => cases h
    | cons b' rest =>
      simp only [scanEscape] at h
      split at h
      · simp only [Except.ok.injEq, Prod.mk.injEq] at h
        simp [← h.2]
      · split_ifs at h
        obtain ⟨⟨a, r₁⟩, h₁, h⟩ := Lib.of_bind_ok h
        obtain ⟨⟨b, r₂⟩, h₂, h⟩ := Lib.of_bind_ok h
        obtain ⟨⟨c, r₃⟩, h₃, h⟩ := Lib.of_bind_ok h
        obtain ⟨⟨d, r₄⟩, h₄, h⟩ := Lib.of_bind_ok h
        have hr : r₄ = text' := (Prod.mk.inj (Except.ok.inj h)).2
        have := takeHex_length h₁
        have := takeHex_length h₂
        have := takeHex_length h₃
        have := takeHex_length h₄
        rw [List.length_cons, ← hr]
        dsimp only at *
        omega
  · simp only [scanSymbol] at h
    split at h
    · cases h
    · split_ifs at h
      simp only [Except.ok.injEq, Prod.mk.injEq] at h
      rw [← h.2, List.length_drop]
      omega

/-- One round is one character, whichever of the two kinds it is. The two decoders count it
differently. -/
theorem unserializeQuoted_round (byRef : Bool) (fuel : Nat) {b : UInt8} (text out : Bytes) {n : Int}
    (hb : b ≠ chQuote) (hn : n < 0) : ∃ f : Bytes → Int, (∀ c, f c < 0 ∧ n - c.length ≤ f c) ∧
      unserializeQuoted byRef (fuel + 1) ⟨out, b :: text, n⟩ =
        (scanChar (b :: text)).bind fun r =>
          unserializeQuoted byRef fuel ⟨out ++ r.1, r.2, f r.1⟩ := by
  by_cases hs : b = chBackslash
  · refine ⟨fun c => if byRef = false ∧ text.head? = some 0x75 then n else n - c.length, ?_, ?_⟩
    · intro c
      dsimp only
      split_ifs <;> omega
    · subst hs
      have hgo : ¬(chBackslash = chQuote ∨ n = 0) := not_or.2 ⟨hb, hn.ne⟩
      simp only [unserializeQuoted, hgo, if_false, if_true, unserializeEscape_eq _ _ hn, scanChar]
      cases scanEscape text <;> rfl
  · refine ⟨fun c => if byRef then n - c.length else n, ?_, ?_⟩
    · intro c
      dsimp only
      split_ifs <;> omega
    · simp only [unserializeQuoted, hb, hn.ne, or_self, if_false, hs, unserializeSymbol_eq _ _ hn,
        scanChar]
      cases scanSymbol (b :: text) <;> rfl

theorem unserializeQuoted_iff (byRef : Bool) {rest : Bytes} :
    ∀ (fuel : Nat) (text out res : Bytes) (n : Int), n < 0 → text.length ≤ fuel →
      ((∃ m, unserializeQuoted byRef fuel ⟨out, text, n⟩ = .ok ⟨res, chQuote :: rest, m⟩) ↔
        ∃ o, res = out ++ o ∧ Scan text o rest) := by
  intro fuel
  induction fuel with
  | zero =>
    intro text out res n _ hlen
    obtain rfl : text = [] := List.length_eq_zero_iff.1 (Nat.le_zero.1 hlen)
    refine iff_of_false ?_ ?_
    · rintro ⟨m, h⟩
      simp [unserializeQuoted] at h
    · rintro ⟨o, -, h⟩
      cases h
  | succ fuel ih =>
    intro text out res n hn hlen
    cases text with
    | nil =>
      refine iff_of_false ?_ ?_
      · rintro ⟨m, h⟩
        simp [unserializeQuoted] at h
      · rintro ⟨o, -, h⟩
        cases h
    | cons b text =>
      by_cases hb : b = chQuote
      · subst hb
        simp only [unserializeQuoted, true_or, if_true, Except.ok.injEq, CharState.mk.injEq,
          List.cons.injEq, true_and]
        constructor
        · rintro ⟨m, rfl, rfl, -⟩
          exact ⟨[], (List.append_nil _).symm, .close text⟩
        · rintro ⟨o, rfl, h⟩
          obtain ⟨rfl, rfl⟩ := h.unique (.close text)
          exact ⟨n, (List.append_nil _).symm, rfl, rfl⟩
      · obtain ⟨f, hf, hround⟩ := unserializeQuoted_round byRef fuel text out hb hn
        rw [hround]
        cases hc : scanChar (b :: text) with
        | error e =>
          refine iff_of_false ?_ ?_
          · rintro ⟨m, h⟩
            cases h
          · rintro ⟨o, -, h⟩
            cases h with
            | close => exact hb rfl
            | char _ hc' => cases hc.symm.trans hc'
        | ok r =>
          obtain ⟨c, text'⟩ := r
          have hlen' : text'.length ≤ fuel := (scanChar_length hc).trans (by simpa using hlen)
          refine (ih text' (out ++ c) res (f c) (hf c).1 hlen').trans ?_
          constructor
          · rintro ⟨o, rfl, h⟩
            exact ⟨c ++ o, by simp, .char hb hc h⟩
          · rintro ⟨o, rfl, h⟩
            cases h with
            | close => exact absurd rfl hb
            | char _ hc' h =>
              cases hc.symm.trans hc'
              exact ⟨_, by simp, h⟩

/-- **Both decoders read a quoted string character by character.** -/
theorem closeQuoted_iff {byRef : Bool} {text out rest : Bytes} :
    closeQuoted byRef (-1) text = .ok (out, rest) ↔ Scan text out rest := by
  have hloop := @unserializeQuoted_iff byRef rest text.length text [] out (-1) (by decide) le_rfl
  simp only [List.nil_append, exists_eq_left'] at hloop
  rw [← hloop]
  simp only [closeQuoted]
  cases unserializeQuoted byRef text.length ⟨[], text, -1⟩ with
  | error e => simp [bind, Except.bind]
  | ok st =>
    obtain ⟨o, beg, n⟩ := st
    simp only [bind, Except.bind, pure, Except.pure]
    cases beg with
    | nil => simp
    | cons b beg =>
      simp only
      split_ifs with hb
      · simp [hb]
      · simp [hb]

end LeveldbDaemon.Json
