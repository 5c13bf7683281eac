import LeveldbDaemon.Json.Portable
import LeveldbDaemon.Lib.Utf8
import Mathlib.Data.List.TakeWhile

/-!
# Containers that come back

`decodeItems` reads what `joinItems` writes, element by element, as long as each element comes
back; and when one does not, the list read is another one. So a list survives the codec exactly
when each of its elements does.
-/

namespace LeveldbDaemon.Json

open Lib

/-! ## Keys and values -/

theorem decodeKey_quote_iff {text out rest : Bytes} :
    decodeKey (chQuote :: text) = .ok (out, rest) ↔ Scan text out rest := by
  have heq : decodeKey (chQuote :: text) = closeQuoted true (-1) text := rfl
  rw [heq]
  exact closeQuoted_iff

theorem decodeStrvalue_quote_iff {text out rest : Bytes} :
    decodeStrvalue (chQuote :: text) = .ok (out, rest) ↔ Scan text out rest := by
  have heq : decodeStrvalue (chQuote :: text) = closeQuoted false (-1) text := rfl
  rw [heq]
  exact closeQuoted_iff

theorem serializeKey_append (k t : Bytes) :
    serializeKey k ++ t = chQuote :: quoted keyFormat k t := by
  simp only [serializeKey, quoted, keyFormat, List.cons_append, List.append_assoc,
    List.nil_append]

theorem serializeStrvalue_append (v t : Bytes) :
    serializeStrvalue v ++ t = chQuote :: quoted valueFormat v t := by
  simp only [serializeStrvalue, quoted, valueFormat, List.cons_append, List.append_assoc,
    List.nil_append]

/-- The elements a decoder reads back from what an encoder writes. -/
structure ReadsBack {α : Type} (item : Decoder α) (enc : α → Bytes) (ok : α → Prop) : Prop where
  iff : ∀ (x : α) (t r : Bytes), item (enc x ++ t) = .ok (x, r) ↔ ok x ∧ r = t
  head : ∀ x, ∃ t, enc x = chQuote :: t

/-- A key that comes back. -/
def PortableKey (k : Bytes) : Prop := portable keyFormat 0 k = true

/-- A value that comes back. -/
def PortableValue (v : Bytes) : Prop := portable valueFormat 0 v = true

instance (k : Bytes) : Decidable (PortableKey k) := inferInstanceAs (Decidable (_ = true))
instance (v : Bytes) : Decidable (PortableValue v) := inferInstanceAs (Decidable (_ = true))

/-! ### Well-formed text -/

theorem trailing_of_announces {b : UInt8} {k : Nat} (h : Announces b k) : trailing b = some k := by
  have hall : ∀ n < 256,
      (0xc0 ≤ n → n < 0xe0 → trailing (UInt8.ofNat n) = some 1) ∧
      (0xe0 ≤ n → n < 0xf0 → trailing (UInt8.ofNat n) = some 2) ∧
      (0xf0 ≤ n → n < 0xf8 → trailing (UInt8.ofNat n) = some 3) := by
    decide +kernel
  obtain ⟨h₁, h₂, h₃⟩ := hall b.toNat b.toNat_lt
  rw [UInt8.ofNat_toNat] at h₁ h₂ h₃
  cases h with
  | one h h' => exact h₁ h h'
  | two h h' => exact h₂ h h'
  | three h h' => exact h₃ h h'

section WellFormed

variable {fmt : Format}

/-- Continuation bytes are written as they are. -/
theorem copies_of_continuation {c : UInt8} (h : 0x80 ≤ c.toNat) : fmt.copies c = true := by
  have hge : ¬c < 128 := by
    simp only [UInt8.lt_iff_toNat_lt]
    exact not_lt.2 h
  have hne : c ≠ 0 := by
    rintro rfl
    exact absurd h (by decide)
  have hesc : escapeOf c = none := by
    cases he : escapeOf c with
    | none => rfl
    | some e => exact absurd (lt_of_escapeOf he) hge
  have hplain : fmt.plain c = true := by
    by_contra hp
    have hlt := (fmt.other_control c (by simpa using hp)).2
    exact hge (lt_trans hlt (by decide))
  simp [Format.copies, hne, hesc, hplain]

theorem portable_continuations {conts : Bytes} (h : ∀ c ∈ conts, 0x80 ≤ c.toNat) (v : Bytes) :
    portable fmt conts.length (conts ++ v) = portable fmt 0 v := by
  induction conts with
  | nil => rfl
  | cons c conts ih =>
    obtain ⟨hc, hconts⟩ := List.forall_mem_cons.1 h
    simp only [List.length_cons, List.cons_append, portable, copies_of_continuation hc,
      Bool.true_and]
    exact ih hconts

theorem portable_ascii {b : UInt8} (h₀ : b ≠ 0) (h : b < 128) (v : Bytes) :
    portable fmt 0 (b :: v) = portable fmt 0 v := by
  simp [portable, h₀, trailing_of_lt h]

/-- The form of a character comes back. -/
theorem portable_utf8 {n : Nat} (h : n ≠ 0) (v : Bytes) :
    portable fmt 0 (utf8 n ++ v) = portable fmt 0 v := by
  rcases utf8_cases n with ⟨hle, heq⟩ | ⟨b, conts, heq, hb, hconts⟩
  · have hnat : (UInt8.ofNat n).toNat = n := toNat_ofNat_of_lt (by omega)
    rw [heq, List.singleton_append]
    refine portable_ascii ?_ ?_ v
    · intro h0
      rw [h0] at hnat
      exact h hnat.symm
    · rw [UInt8.lt_iff_toNat_lt, hnat]
      exact Nat.lt_succ_of_le hle
  · have hne : b ≠ 0 := by
      rintro rfl
      exact absurd hb.le (by decide)
    rw [heq, List.cons_append]
    simp only [portable, ne_eq, hne, not_false_eq_true, decide_true, Bool.true_and,
      trailing_of_announces hb]
    exact portable_continuations hconts v

/-- **Well-formed text without a zero byte comes back.** -/
theorem portable_of_wellFormed {v : Bytes} (h : WellFormedUtf8 v) (h₀ : 0 ∉ v) :
    portable fmt 0 v = true := by
  obtain ⟨s, rfl⟩ := h
  induction s with
  | nil => rfl
  | cons c s ih =>
    have hcons : utf8Text (c :: s) = utf8 c.val.toNat ++ utf8Text s := rfl
    rw [hcons] at h₀ ⊢
    have hne : c.val.toNat ≠ 0 := by
      intro hc
      rw [hc] at h₀
      exact h₀ List.mem_cons_self
    rw [portable_utf8 hne]
    exact ih fun h => h₀ (List.mem_append_right _ h)

end WellFormed

theorem readsBack_key : ReadsBack decodeKey serializeKey PortableKey := by
  refine ⟨?_, ?_⟩
  · intro k t r
    rw [serializeKey_append, decodeKey_quote_iff]
    exact scan_quoted_iff
  · intro k
    exact ⟨_, rfl⟩

theorem parseSpace_cons {b : UInt8} (h : b = chQuote ∨ b = chColon ∨ b = chComma ∨ b = chRBrace ∨
    b = chRBracket) (t : Bytes) : parseSpace false (b :: t) = b :: t := by
  rcases h with rfl | rfl | rfl | rfl | rfl <;> rfl

theorem readsBack_pair : ReadsBack (decodePair decodeKey decodeStrvalue) encodePair
    fun p => PortableKey p.1 ∧ PortableValue p.2 := by
  refine ⟨?_, ?_⟩
  · rintro ⟨k, v⟩ t r
    have htext : encodePair (k, v) ++ t =
        serializeKey k ++ chColon :: chQuote :: quoted valueFormat v t := by
      rw [encodePair, List.append_assoc, List.cons_append, serializeStrvalue_append]
    rw [htext]
    constructor
    · intro h
      obtain ⟨⟨k', r₁⟩, hk, h⟩ := of_bind_ok h
      -- the key read is the key written, or the pair would be another one
      have hkey : k' = k := by
        dsimp only at h
        split at h
        · cases h
        · split_ifs at h
          split at h
          · cases h
          · obtain ⟨⟨v', r₄⟩, -, h⟩ := of_bind_ok h
            exact (Prod.mk.inj (Prod.mk.inj (Except.ok.inj h)).1).1
      subst hkey
      obtain ⟨hport, rfl⟩ := (readsBack_key.iff _ _ _).1 hk
      simp only [parseSpace_cons (b := chColon) (by simp), parseSpace_cons (b := chQuote) (by simp),
        ne_eq, not_true_eq_false, if_false] at h
      obtain ⟨⟨v', r₄⟩, hv, h⟩ := of_bind_ok h
      have hpair := Prod.mk.inj (Except.ok.inj h)
      have hvalue : v' = v := (Prod.mk.inj hpair.1).2
      have hr : r₄ = r := hpair.2
      subst hvalue hr
      obtain ⟨hport', rfl⟩ := scan_quoted_iff.1 (decodeStrvalue_quote_iff.1 hv)
      exact ⟨⟨hport, hport'⟩, rfl⟩
    · rintro ⟨⟨hk, hv⟩, rfl⟩
      have hkey := (readsBack_key.iff k (chColon :: chQuote :: quoted valueFormat v r) _).2 ⟨hk, rfl⟩
      have hvalue : decodeStrvalue (chQuote :: quoted valueFormat v r) = .ok (v, r) :=
        decodeStrvalue_quote_iff.2 (scan_quoted_iff.2 ⟨hv, rfl⟩)
      simp only [decodePair, hkey, bind, Except.bind, parseSpace_cons (b := chColon) (by simp),
        parseSpace_cons (b := chQuote) (by simp), ne_eq, not_true_eq_false, if_false, hvalue]
      rfl
  · rintro ⟨k, v⟩
    exact ⟨_, rfl⟩

/-! ## Lists -/

section Lists

variable {α : Type} {item : Decoder α} {enc : α → Bytes} {ok : α → Prop} {close : UInt8}

/-- The loop behind an element: it ends at the closing byte and goes on at a comma. -/
def afterItem (item : Decoder α) (close : UInt8) (fuel : Nat) (acc : List α) : Decoder (List α) :=
  fun r =>
    match parseSpace false r with
    | [] => .error .unexpectedEndFragment
    | b :: r =>
      if b = close then .ok (acc, r)
      else if b ≠ chComma then .error (.expectedOf ",")
      else decodeItems item close fuel acc r

/-- One round of the loop, in front of an element. -/
theorem decodeItems_item {beg r : Bytes} {b : UInt8} (hspace : parseSpace false beg = b :: r)
    (hb : b ≠ close) (fuel : Nat) (acc : List α) :
    decodeItems item close (fuel + 1) acc beg =
      (item (b :: r)).bind fun y => afterItem item close fuel (acc ++ [y.1]) y.2 := by
  simp only [decodeItems, hspace, hb, if_false]
  rfl

theorem afterItem_close {r tail : Bytes} (hspace : parseSpace false r = close :: tail) (fuel : Nat)
    (acc : List α) : afterItem item close fuel acc r = .ok (acc, tail) := by
  simp only [afterItem, hspace, if_true]

theorem afterItem_comma {r tail : Bytes} (hspace : parseSpace false r = chComma :: tail)
    (hne : chComma ≠ close) (fuel : Nat) (acc : List α) :
    afterItem item close fuel acc r = decodeItems item close fuel acc tail := by
  simp only [afterItem, hspace, hne, if_false, ne_eq, not_true_eq_false]

/-- Behind an element the loop has ended or has rounds to go. -/
theorem afterItem_cases {fuel : Nat} {acc l : List α} {rest r : Bytes}
    (h : afterItem item close fuel acc rest = .ok (l, r)) :
    l = acc ∨ ∃ tail, decodeItems item close fuel acc tail = .ok (l, r) := by
  simp only [afterItem] at h
  split at h
  · cases h
  · split_ifs at h
    · cases h
      exact .inl rfl
    · exact .inr ⟨_, h⟩

/-- What has been read stays. -/
theorem prefix_of_decodeItems : ∀ {fuel : Nat} {acc l : List α} {beg r : Bytes},
    decodeItems item close fuel acc beg = .ok (l, r) → acc <+: l
  | 0, acc, l, beg, r, h => by cases h
  | fuel + 1, acc, l, beg, r, h => by
    cases hspace : parseSpace false beg with
    | nil => simp [decodeItems, hspace] at h
    | cons b r₀ =>
      by_cases hb : b = close
      · simp only [decodeItems, hspace, hb, if_true] at h
        cases h
        exact List.prefix_rfl
      · rw [decodeItems_item hspace hb] at h
        obtain ⟨⟨x, r₁⟩, -, h⟩ := of_bind_ok h
        rcases afterItem_cases h with rfl | ⟨tail, h⟩
        · exact List.prefix_append acc [x]
        · exact (List.prefix_append acc [x]).trans (prefix_of_decodeItems h)

theorem prefix_of_afterItem {fuel : Nat} {acc l : List α} {rest r : Bytes}
    (h : afterItem item close fuel acc rest = .ok (l, r)) : acc <+: l := by
  rcases afterItem_cases h with rfl | ⟨tail, h⟩
  · exact List.prefix_rfl
  · exact prefix_of_decodeItems h

/-- The element behind which the loop is comes next in the list it returns. -/
theorem eq_of_afterItem {fuel : Nat} {acc xs : List α} {x y : α} {rest r : Bytes}
    (h : afterItem item close fuel (acc ++ [y]) rest = .ok (acc ++ x :: xs, r)) : y = x := by
  obtain ⟨l, hl⟩ := prefix_of_afterItem h
  rw [List.append_assoc] at hl
  exact (List.cons.inj (List.append_cancel_left hl)).1

/-- One round, in front of whatever follows the element. -/
theorem decodeItems_round_iff (hitem : ReadsBack item enc ok) (hquote : chQuote ≠ close) {fuel : Nat}
    {acc xs : List α} {x : α} {t r : Bytes} :
    decodeItems item close (fuel + 1) acc (enc x ++ t) = .ok (acc ++ x :: xs, r) ↔
      ok x ∧ afterItem item close fuel (acc ++ [x]) t = .ok (acc ++ x :: xs, r) := by
  have hround : decodeItems item close (fuel + 1) acc (enc x ++ t) =
      (item (enc x ++ t)).bind fun y => afterItem item close fuel (acc ++ [y.1]) y.2 := by
    obtain ⟨text, htext⟩ := hitem.head x
    rw [htext, List.cons_append]
    exact decodeItems_item (parseSpace_cons (by simp) _) hquote fuel acc
  rw [hround]
  constructor
  · intro h
    obtain ⟨⟨y, r₁⟩, hy, hrest⟩ := of_bind_ok h
    obtain rfl := eq_of_afterItem hrest
    obtain ⟨hok, rfl⟩ := (hitem.iff _ _ _).1 hy
    exact ⟨hok, hrest⟩
  · rintro ⟨hok, h⟩
    rw [(hitem.iff x t _).2 ⟨hok, rfl⟩]
    exact h

theorem decodeItems_iff (hitem : ReadsBack item enc ok)
    (hclose : close = chRBrace ∨ close = chRBracket) {tail r : Bytes} :
    ∀ {xs : List α}, xs ≠ [] → ∀ {acc : List α} {fuel : Nat}, xs.length ≤ fuel →
      (decodeItems item close fuel acc (joinItems (xs.map enc) ++ close :: tail) =
          .ok (acc ++ xs, r) ↔ (∀ x ∈ xs, ok x) ∧ r = tail) := by
  have hspace (t : Bytes) : parseSpace false (close :: t) = close :: t :=
    parseSpace_cons (by tauto) t
  have hcomma (t : Bytes) : parseSpace false (chComma :: t) = chComma :: t :=
    parseSpace_cons (by tauto) t
  have hcommaNe : chComma ≠ close := by rcases hclose with rfl | rfl <;> decide
  have hquoteNe : chQuote ≠ close := by rcases hclose with rfl | rfl <;> decide
  intro xs
  induction xs with
  | nil => exact fun h => absurd rfl h
  | cons x xs ih =>
    intro _ acc fuel hfuel
    obtain ⟨fuel, rfl⟩ : ∃ f, fuel = f + 1 :=
      Nat.exists_eq_add_one.2 (lt_of_lt_of_le (Nat.succ_pos _) hfuel)
    cases xs with
    | nil =>
      have hend : afterItem item close fuel (acc ++ [x]) (close :: tail) = .ok (acc ++ [x], tail) :=
        afterItem_close (hspace tail) fuel _
      simp only [List.map_cons, List.map_nil, joinItems, List.mem_singleton, forall_eq]
      rw [decodeItems_round_iff hitem hquoteNe, hend, Except.ok.injEq, Prod.mk.injEq, and_iff_right rfl,
        eq_comm (a := r)]
    | cons x' xs =>
      have htext : joinItems ((x :: x' :: xs).map enc) ++ close :: tail =
          enc x ++ chComma :: (joinItems ((x' :: xs).map enc) ++ close :: tail) := by
        simp [joinItems]
      have hrest := @ih (by simp) (acc ++ [x]) fuel (by simpa using hfuel)
      rw [List.append_assoc, List.singleton_append] at hrest
      rw [htext, decodeItems_round_iff hitem hquoteNe, afterItem_comma (hcomma _) hcommaNe, hrest,
        List.forall_mem_cons (a := x), and_assoc]

theorem length_le_joinItems (hitem : ReadsBack item enc ok) :
    ∀ xs : List α, xs.length ≤ (joinItems (xs.map enc)).length
  | [] => le_rfl
  | [x] => by
    obtain ⟨t, ht⟩ := hitem.head x
    simp [joinItems, ht]
  | x :: x' :: xs => by
    have ih := length_le_joinItems hitem (x' :: xs)
    simp only [List.map_cons, joinItems, List.length_append, List.length_cons] at ih ⊢
    omega

/-- **A list comes back exactly when each of its elements does.** -/
theorem decodeArray_iff (hitem : ReadsBack item enc ok)
    (hclose : close = chRBrace ∨ close = chRBracket) {open_ : UInt8} (hopen : open_ ≠ chN)
    {xs : List α} {tail r : Bytes} :
    decodeArray item open_ close (open_ :: joinItems (xs.map enc) ++ close :: tail) = .ok (xs, r) ↔
      (∀ x ∈ xs, ok x) ∧ r = tail := by
  have hnull (t : Bytes) : isNull (open_ :: t) = false := by simp [isNull, hopen]
  simp only [decodeArray, List.cons_append, hnull, Bool.false_eq_true, if_false, if_true]
  by_cases hxs : xs = []
  · subst hxs
    have hspace : parseSpace false (close :: tail) = close :: tail := parseSpace_cons (by tauto) _
    simp only [List.map_nil, joinItems, List.nil_append, decodeItems, hspace, if_true,
      Except.ok.injEq, Prod.mk.injEq, true_and, List.not_mem_nil, false_imp_iff, implies_true]
    exact eq_comm
  · have hlen := length_le_joinItems hitem xs
    have hfuel : xs.length ≤ (joinItems (xs.map enc) ++ close :: tail).length + 1 := by
      rw [List.length_append]
      omega
    have h := @decodeItems_iff _ _ _ _ _ hitem hclose tail r xs hxs [] _ hfuel
    rw [List.nil_append] at h
    exact h

end Lists

theorem decodeValmap2str_encode_iff {data : List (Bytes × Bytes)} {tail r : Bytes} :
    decodeValmap2str (encodeValmap2str data ++ tail) = .ok (data, r) ↔
      (∀ p ∈ data, PortableKey p.1 ∧ PortableValue p.2) ∧ r = tail := by
  have harray : decodeValmap2str (encodeValmap2str data ++ tail) =
      decodeArray (decodePair decodeKey decodeStrvalue) chLBrace chRBrace
        (encodeValmap2str data ++ tail) := by
    unfold decodeValmap2str decodePairedArray
    split
    · rename_i b c rest heq
      have hb : b = chLBrace := (List.cons.inj heq).1.symm
      rw [if_neg]
      rintro ⟨rfl, -⟩
      exact absurd hb (by decide)
    · rfl
  have htext : encodeValmap2str data ++ tail =
      chLBrace :: joinItems (data.map encodePair) ++ chRBrace :: tail := by
    simp [encodeValmap2str]
  rw [harray, htext]
  exact decodeArray_iff readsBack_pair (.inl rfl) (by decide)

theorem decodeVallist_encode_iff {data : List Bytes} {tail r : Bytes} :
    decodeVallist (encodeVallist data ++ tail) = .ok (data, r) ↔
      (∀ k ∈ data, PortableKey k) ∧ r = tail := by
  have htext : encodeVallist data ++ tail =
      chLBracket :: joinItems (data.map serializeKey) ++ chRBracket :: tail := by
    simp [encodeVallist]
  rw [htext]
  exact decodeArray_iff readsBack_key (.inr rfl) (by decide)

/-! ## Up to the first zero byte -/

/-- What the encoders write of a string. -/
def cut (v : Bytes) : Bytes := v.takeWhile (· ≠ 0)

def cutPair (p : Bytes × Bytes) : Bytes × Bytes := (cut p.1, cut p.2)

theorem zero_notMem_cut (v : Bytes) : 0 ∉ cut v := by
  intro h
  have := List.mem_takeWhile_imp (p := fun b => decide (b ≠ 0)) h
  exact of_decide_eq_true this rfl

theorem cut_eq_self {v : Bytes} (h : 0 ∉ v) : cut v = v := by
  refine List.takeWhile_eq_self_iff.2 ?_
  intro b hb
  refine decide_eq_true ?_
  rintro rfl
  exact h hb

theorem cut_length_le (v : Bytes) : (cut v).length ≤ v.length :=
  (List.takeWhile_prefix _).length_le

theorem serializeChars_cut (other : UInt8 → Bytes) (v : Bytes) :
    serializeChars other (cut v) = serializeChars other v := by
  induction v with
  | nil => rfl
  | cons b v ih =>
    by_cases hb : b = 0
    · subst hb
      rfl
    · have hcut : cut (b :: v) = b :: cut v := List.takeWhile_cons_of_pos (decide_eq_true hb)
      rw [hcut, serializeChars, serializeChars, ih]

theorem encodePair_cut (p : Bytes × Bytes) : encodePair (cutPair p) = encodePair p := by
  simp only [encodePair, cutPair, serializeKey, serializeStrvalue, serializeChars_cut]

theorem encodeValmap2str_cut (data : List (Bytes × Bytes)) :
    encodeValmap2str (data.map cutPair) = encodeValmap2str data := by
  simp only [encodeValmap2str, List.map_map, Function.comp_def, encodePair_cut]

theorem zero_notMem_of_portable {fmt : Format} : ∀ {k : Nat} {v : Bytes}, portable fmt k v = true → 0 ∉ v
  | _, [], _ => List.not_mem_nil
  | 0, b :: v, h => by
    simp only [portable, Bool.and_eq_true, decide_eq_true_eq] at h
    cases ht : trailing b with
    | none => simp [ht] at h
    | some k =>
      rw [ht] at h
      exact List.not_mem_cons_of_ne_of_not_mem h.1.symm (zero_notMem_of_portable h.2)
  | k + 1, b :: v, h => by
    simp only [portable, Bool.and_eq_true] at h
    exact List.not_mem_cons_of_ne_of_not_mem (Format.copies_spec h.1).1.symm
      (zero_notMem_of_portable h.2)

theorem cut_utf8 (ns : List Nat) :
    cut (ns.flatMap utf8) = (ns.takeWhile (· ≠ 0)).flatMap utf8 := by
  induction ns with
  | nil => rfl
  | cons n ns ih =>
    by_cases hn : n = 0
    · subst hn
      rfl
    · have hall : ∀ b ∈ utf8 n, decide (b ≠ 0) = true := by
        intro b hb
        refine decide_eq_true ?_
        rintro rfl
        exact hn (zero_mem_utf8.1 hb)
      have hcut : cut (utf8 n ++ ns.flatMap utf8) = utf8 n ++ cut (ns.flatMap utf8) :=
        List.takeWhile_append_of_pos hall
      rw [List.takeWhile_cons_of_pos (by simpa using hn), List.flatMap_cons, List.flatMap_cons, hcut, ih]

/-- Forms of characters come back, up to the first zero. -/
theorem portable_cut_utf8 (fmt : Format) (ns : List Nat) :
    portable fmt 0 (cut (ns.flatMap utf8)) = true := by
  rw [cut_utf8]
  have hne : ∀ n ∈ ns.takeWhile (· ≠ 0), n ≠ 0 := by
    intro n hn
    have := List.mem_takeWhile_imp (p := fun n => decide (n ≠ 0)) hn
    exact of_decide_eq_true this
  generalize ns.takeWhile (· ≠ 0) = ms at hne
  induction ms with
  | nil => rfl
  | cons n ms ih =>
    obtain ⟨hn, hms⟩ := List.forall_mem_cons.1 hne
    rw [List.flatMap_cons, portable_utf8 hn]
    exact ih hms

/-- **A map comes back cut at zero bytes**, when that much of its names and values does. -/
theorem decodeArray_encode_cut {data : List (Bytes × Bytes)}
    (h : ∀ p ∈ data, PortableKey (cut p.1) ∧ PortableValue (cut p.2)) :
    decodeArray (decodePair decodeKey decodeStrvalue) chLBrace chRBrace (encodeValmap2str data) =
      .ok (data.map cutPair, []) := by
  rw [← encodeValmap2str_cut]
  refine (decodeArray_iff readsBack_pair (.inl rfl) (by decide)).2 ⟨?_, rfl⟩
  intro p hp
  obtain ⟨q, hq, rfl⟩ := List.mem_map.1 hp
  exact h q hq

end LeveldbDaemon.Json
