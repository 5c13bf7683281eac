import Mathlib.Data.List.Basic
import Mathlib.Tactic.NormNum

/-!
# UTF-8

The UTF-8 form of a number, and of a text as the concatenation of the forms of its characters. A
form is an ASCII byte, or a first byte that announces how many continuation bytes follow, and
then these.
-/

namespace Lib

/-- The UTF-8 form of a number below `2^21`. Surrogates get the form of their own number. -/
def utf8 (v : Nat) : List UInt8 :=
  if v ≤ 0x7f then [UInt8.ofNat v]
  else if v ≤ 0x7ff then [UInt8.ofNat (v / 64 % 0x20 + 0xc0), UInt8.ofNat (v % 0x40 + 0x80)]
  else if v ≤ 0xffff then
    [UInt8.ofNat (v / 4096 % 0x10 + 0xe0), UInt8.ofNat (v / 64 % 0x40 + 0x80),
      UInt8.ofNat (v % 0x40 + 0x80)]
  else
    [UInt8.ofNat (v / 262144 % 0x08 + 0xf0), UInt8.ofNat (v / 4096 % 0x40 + 0x80),
      UInt8.ofNat (v / 64 % 0x40 + 0x80), UInt8.ofNat (v % 0x40 + 0x80)]

example (c : Char) : String.utf8EncodeChar c = utf8 c.val.toNat := rfl

/-- The UTF-8 form of a text. -/
def utf8Text (s : List Char) : List UInt8 := s.flatMap fun c => utf8 c.val.toNat

/-- A byte string is well-formed UTF-8: it is the form of a text. -/
def WellFormedUtf8 (v : List UInt8) : Prop := ∃ s, utf8Text s = v

/-- How many continuation bytes a first byte announces. -/
inductive Announces : UInt8 → Nat → Prop
  | one {b : UInt8} (h : 0xc0 ≤ b.toNat) (h' : b.toNat < 0xe0) : Announces b 1
  | two {b : UInt8} (h : 0xe0 ≤ b.toNat) (h' : b.toNat < 0xf0) : Announces b 2
  | three {b : UInt8} (h : 0xf0 ≤ b.toNat) (h' : b.toNat < 0xf8) : Announces b 3

theorem Announces.le {b : UInt8} {k : Nat} (h : Announces b k) : 0xc0 ≤ b.toNat := by
  cases h with
  | one h | two h | three h => omega

theorem toNat_ofNat_of_lt {n : Nat} (h : n < 256) : (UInt8.ofNat n).toNat = n := by
  rw [UInt8.toNat_ofNat']
  exact Nat.mod_eq_of_lt h

/-- A form is one ASCII byte, or a first byte with its continuation bytes. -/
theorem utf8_cases (v : Nat) :
    (v ≤ 0x7f ∧ utf8 v = [UInt8.ofNat v]) ∨
      ∃ b conts, utf8 v = b :: conts ∧ Announces b conts.length ∧ ∀ c ∈ conts, 0x80 ≤ c.toNat := by
  have hcont (n : Nat) : 0x80 ≤ (UInt8.ofNat (n % 0x40 + 0x80)).toNat := by
    rw [toNat_ofNat_of_lt (by omega)]
    omega
  unfold utf8
  split_ifs with h₁ h₂ h₃
  · exact .inl ⟨h₁, rfl⟩
  · refine .inr ⟨_, _, rfl, .one ?_ ?_, ?_⟩
    · rw [toNat_ofNat_of_lt (by omega)]
      omega
    · rw [toNat_ofNat_of_lt (by omega)]
      omega
    · simp only [List.forall_mem_cons, hcont, List.not_mem_nil, false_imp_iff, implies_true, and_self]
  · refine .inr ⟨_, _, rfl, .two ?_ ?_, ?_⟩
    · rw [toNat_ofNat_of_lt (by omega)]
      omega
    · rw [toNat_ofNat_of_lt (by omega)]
      omega
    · simp only [List.forall_mem_cons, hcont, List.not_mem_nil, false_imp_iff, implies_true, and_self]
  · refine .inr ⟨_, _, rfl, .three ?_ ?_, ?_⟩
    · rw [toNat_ofNat_of_lt (by omega)]
      omega
    · rw [toNat_ofNat_of_lt (by omega)]
      omega
    · simp only [List.forall_mem_cons, hcont, List.not_mem_nil, false_imp_iff, implies_true, and_self]

theorem utf8_length_pos (v : Nat) : 0 < (utf8 v).length := by
  rcases utf8_cases v with ⟨-, h⟩ | ⟨b, conts, h, -, -⟩
  · simp [h]
  · simp [h]

theorem utf8_length_le (v : Nat) :
    (utf8 v).length ≤ 4 ∧ (v ≤ 0xffff → (utf8 v).length ≤ 3) ∧ (v ≤ 0x7f → (utf8 v).length = 1) := by
  unfold utf8
  split_ifs with h₁ h₂ h₃
  · exact ⟨by simp, fun _ => by simp, fun _ => rfl⟩
  · exact ⟨by simp, fun _ => by simp, fun h => absurd h h₁⟩
  · exact ⟨by simp, fun _ => by simp, fun h => absurd h h₁⟩
  · exact ⟨by simp, fun h => absurd h h₃, fun h => absurd h h₁⟩

/-- Only the number zero gives a zero byte. -/
theorem zero_mem_utf8 {v : Nat} : 0 ∈ utf8 v ↔ v = 0 := by
  constructor
  · intro hmem
    rcases utf8_cases v with ⟨hle, h⟩ | ⟨b, conts, h, hb, hconts⟩
    · rw [h, List.mem_singleton] at hmem
      have hnat := congrArg UInt8.toNat hmem
      rw [toNat_ofNat_of_lt (by omega)] at hnat
      exact hnat.symm
    · rw [h, List.mem_cons] at hmem
      rcases hmem with rfl | hmem
      · exact absurd hb.le (by decide)
      · exact absurd (hconts 0 hmem) (by decide)
  · rintro rfl
    exact List.mem_cons_self

theorem zero_mem_flatMap_utf8 {ns : List Nat} : 0 ∈ ns.flatMap utf8 ↔ 0 ∈ ns := by
  rw [List.mem_flatMap]
  constructor
  · rintro ⟨n, hn, h⟩
    rwa [zero_mem_utf8.1 h] at hn
  · intro h
    exact ⟨0, h, zero_mem_utf8.2 rfl⟩

/-! ## Reading a form back -/

/-- The number of the form a byte string starts with, and what follows it. -/
def unutf8 : List UInt8 → Nat × List UInt8
  | [] => (0, [])
  | b :: r =>
    if b.toNat < 0x80 then (b.toNat, r)
    else
      match r with
      | [] => (0, [])
      | c :: r =>
        if b.toNat < 0xe0 then ((b.toNat - 0xc0) * 64 + (c.toNat - 0x80), r)
        else
          match r with
          | [] => (0, [])
          | d :: r =>
            if b.toNat < 0xf0 then
              (((b.toNat - 0xe0) * 64 + (c.toNat - 0x80)) * 64 + (d.toNat - 0x80), r)
            else
              match r with
              | [] => (0, [])
              | e :: r =>
                ((((b.toNat - 0xf0) * 64 + (c.toNat - 0x80)) * 64 + (d.toNat - 0x80)) * 64 +
                  (e.toNat - 0x80), r)

theorem unutf8_utf8 {v : Nat} (h : v < 0x200000) (t : List UInt8) : unutf8 (utf8 v ++ t) = (v, t) := by
  have hcont (n : Nat) : (UInt8.ofNat (n % 0x40 + 0x80)).toNat = n % 0x40 + 0x80 :=
    toNat_ofNat_of_lt (by omega)
  have htwo (n : Nat) : (UInt8.ofNat (n % 0x20 + 0xc0)).toNat = n % 0x20 + 0xc0 :=
    toNat_ofNat_of_lt (by omega)
  have hthree (n : Nat) : (UInt8.ofNat (n % 0x10 + 0xe0)).toNat = n % 0x10 + 0xe0 :=
    toNat_ofNat_of_lt (by omega)
  have hfour (n : Nat) : (UInt8.ofNat (n % 0x08 + 0xf0)).toNat = n % 0x08 + 0xf0 :=
    toNat_ofNat_of_lt (by omega)
  unfold utf8
  split_ifs with h₁ h₂ h₃
  · have hone : (UInt8.ofNat v).toNat = v := toNat_ofNat_of_lt (by omega)
    simp only [List.singleton_append, unutf8, hone]
    rw [if_pos (by omega)]
  · simp only [List.cons_append, List.nil_append, unutf8, htwo, hcont]
    rw [if_neg (by omega), if_pos (by omega)]
    refine Prod.ext ?_ rfl
    dsimp only
    omega
  · simp only [List.cons_append, List.nil_append, unutf8, hthree, hcont]
    rw [if_neg (by omega), if_neg (by omega), if_pos (by omega)]
    refine Prod.ext ?_ rfl
    dsimp only
    omega
  · simp only [List.cons_append, List.nil_append, unutf8, hfour, hcont]
    rw [if_neg (by omega), if_neg (by omega), if_neg (by omega)]
    refine Prod.ext ?_ rfl
    dsimp only
    omega

/-- Different numbers have different forms. -/
theorem flatMap_utf8_inj {ns ms : List Nat} (hn : ∀ n ∈ ns, n < 0x200000) (hm : ∀ m ∈ ms, m < 0x200000)
    (h : ns.flatMap utf8 = ms.flatMap utf8) : ns = ms := by
  have hnil {n : Nat} {l : List Nat} : (n :: l).flatMap utf8 ≠ [] := by
    intro heq
    have := utf8_length_pos n
    rw [List.flatMap_cons, List.append_eq_nil_iff] at heq
    simp [heq.1] at this
  induction ns generalizing ms with
  | nil =>
    cases ms with
    | nil => rfl
    | cons m ms => exact absurd h.symm hnil
  | cons n ns ih =>
    cases ms with
    | nil => exact absurd h hnil
    | cons m ms =>
      obtain ⟨hn₀, hns⟩ := List.forall_mem_cons.1 hn
      obtain ⟨hm₀, hms⟩ := List.forall_mem_cons.1 hm
      have heq := congrArg unutf8 h
      rw [List.flatMap_cons, List.flatMap_cons, unutf8_utf8 hn₀, unutf8_utf8 hm₀] at heq
      obtain ⟨rfl, hrest⟩ := Prod.mk.inj heq
      rw [ih hns hms hrest]

/-! ## Texts -/

@[simp] theorem utf8Text_nil : utf8Text [] = [] := rfl

@[simp] theorem utf8Text_append (s t : List Char) : utf8Text (s ++ t) = utf8Text s ++ utf8Text t :=
  List.flatMap_append

@[simp] theorem utf8Text_cons (c : Char) (s : List Char) :
    utf8Text (c :: s) = utf8 c.val.toNat ++ utf8Text s := rfl

theorem utf8Text_inj {s t : List Char} (h : utf8Text s = utf8Text t) : s = t := by
  have hlt (s : List Char) : ∀ n ∈ s.map (fun c => c.val.toNat), n < 0x200000 := by
    intro n hn
    obtain ⟨c, -, rfl⟩ := List.mem_map.1 hn
    rcases c.valid with hc | hc <;> omega
  have hforms (s : List Char) : utf8Text s = (s.map fun c => c.val.toNat).flatMap utf8 := by
    rw [utf8Text, List.flatMap_map]
  rw [hforms, hforms] at h
  refine List.map_injective_iff.2 (fun c d hcd => ?_) (flatMap_utf8_inj (hlt s) (hlt t) h)
  exact Char.ext (UInt32.toNat_inj.1 hcd)

theorem length_le_utf8Text (s : List Char) : s.length ≤ (utf8Text s).length := by
  induction s with
  | nil => exact le_rfl
  | cons c s ih =>
    have := utf8_length_pos c.val.toNat
    rw [utf8Text_cons, List.length_append, List.length_cons]
    omega

theorem utf8Text_eq_nil_iff {s : List Char} : utf8Text s = [] ↔ s = [] := by
  constructor
  · intro h
    have hlen := length_le_utf8Text s
    rw [h, List.length_nil] at hlen
    exact List.eq_nil_of_length_eq_zero (Nat.le_zero.1 hlen)
  · rintro rfl
    rfl

/-! ## Well-formed parts -/

theorem wellFormedUtf8_nil : WellFormedUtf8 [] := ⟨[], rfl⟩

theorem WellFormedUtf8.append {v w : List UInt8} (hv : WellFormedUtf8 v) (hw : WellFormedUtf8 w) :
    WellFormedUtf8 (v ++ w) := by
  obtain ⟨s, rfl⟩ := hv
  obtain ⟨t, rfl⟩ := hw
  exact ⟨s ++ t, utf8Text_append s t⟩

/-- An ASCII byte is a form of its own. -/
theorem utf8_toNat {b : UInt8} (h : b < 0x80) : utf8 b.toNat = [b] := by
  have hle : b.toNat ≤ 0x7f := Nat.le_of_lt_succ (UInt8.lt_iff_toNat_lt.1 h)
  rw [utf8, if_pos hle, UInt8.ofNat_toNat]

theorem wellFormedUtf8_ascii {b : UInt8} (h : b < 0x80) : WellFormedUtf8 [b] := by
  refine ⟨[Char.ofUInt8 b], ?_⟩
  rw [utf8Text_cons, utf8Text_nil, List.append_nil]
  exact utf8_toNat h

/-- An ASCII byte is part of no longer form. -/
theorem utf8_of_ascii_mem {n : Nat} {b : UInt8} (h : b < 0x80) (hb : b ∈ utf8 n) : utf8 n = [b] := by
  rw [UInt8.lt_iff_toNat_lt] at h
  rcases utf8_cases n with ⟨-, heq⟩ | ⟨b', conts, heq, hb', hconts⟩
  · rw [heq, List.mem_singleton] at hb
    rw [heq, hb]
  · rw [heq, List.mem_cons] at hb
    rcases hb with rfl | hb
    · exact absurd hb'.le (not_le.2 (lt_trans h (by decide)))
    · exact absurd (hconts b hb) (not_le.2 h)

/-- **A well-formed string may be cut at an ASCII byte.** -/
theorem wellFormedUtf8_cons_iff {b : UInt8} (h : b < 0x80) {v w : List UInt8} :
    WellFormedUtf8 (v ++ b :: w) ↔ WellFormedUtf8 v ∧ WellFormedUtf8 w := by
  constructor
  · rintro ⟨s, hs⟩
    induction s generalizing v with
    | nil => exact absurd hs.symm (List.append_ne_nil_of_right_ne_nil v (List.cons_ne_nil b w))
    | cons c s ih =>
      rw [utf8Text_cons] at hs
      rcases List.append_eq_append_iff.1 hs with ⟨v', rfl, hrest⟩ | ⟨cs, hform, hrest⟩
      · obtain ⟨hv', hw⟩ := ih hrest
        refine ⟨.append ⟨[c], ?_⟩ hv', hw⟩
        rw [utf8Text_cons, utf8Text_nil, List.append_nil]
      · cases cs with
        | nil =>
          obtain ⟨-, hw⟩ := ih (v := []) hrest.symm
          refine ⟨⟨[c], ?_⟩, hw⟩
          rw [utf8Text_cons, utf8Text_nil, List.append_nil, hform, List.append_nil]
        | cons a cs =>
          -- the byte is in the form of `c`, so it is all of it
          obtain ⟨rfl, hw⟩ := List.cons.inj hrest
          have hmem : b ∈ utf8 c.val.toNat := by
            rw [hform]
            exact List.mem_append_right v List.mem_cons_self
          rw [utf8_of_ascii_mem h hmem] at hform
          cases v with
          | nil =>
            obtain rfl : [] = cs := (List.cons.inj hform).2
            exact ⟨wellFormedUtf8_nil, s, hw.symm⟩
          | cons a v => simp at hform
  · rintro ⟨hv, hw⟩
    exact hv.append ((wellFormedUtf8_ascii h).append hw)

end Lib
