import LeveldbDaemon.Json.SkipLocality

/-!
# How far the object decoder looks

The decoder of objects looks no further than it reads either, so an object reads the same in front
of anything. Where a name is not the one that is looked for, that shows before its closing quote, and
whatever is read then takes the name with it.
-/

namespace LeveldbDaemon.Json

open Lib Lib.Reading

/-! ## Names -/

section Members

variable {α : Type}

/-- The name, up to its closing quote. -/
theorem matchName_some_iff : ∀ {name x r : Bytes}, chQuote ∉ name →
    (matchName name x = .ok (some r) ↔ x = name ++ chQuote :: r)
  | name, [], r, _ => by simp [matchName]
  | [], b :: x, r, _ => by
    by_cases hb : b = chQuote
    · simp [matchName, hb]
    · simp [matchName, hb]
  | c :: name, b :: x, r, h => by
    obtain ⟨hc, hname⟩ := not_or.1 (mt List.mem_cons.2 h)
    rw [matchName, List.cons_append, List.cons.injEq]
    by_cases hb : b = c
    · subst hb
      rw [if_pos ⟨rfl, Ne.symm hc⟩, matchName_some_iff hname, and_iff_right rfl]
    · rw [if_neg fun h => hb h.1]
      exact iff_of_false (by simp) fun h => hb h.1

/-- That it is another name shows before the closing quote. -/
theorem matchName_none_congr : ∀ {name u r r' : Bytes}, matchName name (u ++ chQuote :: r) = .ok none →
    matchName name (u ++ chQuote :: r') = .ok none
  | [], [], r, r', h => by simp [matchName] at h
  | [], b :: u, r, r', h => by
    rw [List.cons_append, matchName] at h ⊢
    by_cases hb : b = chQuote
    · simp [hb] at h
    · simp [hb]
  | c :: name, [], r, r', _ => by simp [matchName]
  | c :: name, b :: u, r, r', h => by
    rw [List.cons_append, matchName] at h ⊢
    split_ifs at h ⊢
    · exact matchName_none_congr h
    · rfl

theorem parseColon_iff {x r : Bytes} : parseColon x = .ok r ↔ colon x () r := by
  unfold parseColon colon
  cases parseSpace false x with
  | nil => simp
  | cons c y =>
    by_cases hc : c = chColon
    · subst hc
      simp only [ne_eq, not_true_eq_false, if_false, List.cons.injEq, true_and, exists_eq_left']
      cases parseSpace false y with
      | nil => simp +contextual [eq_comm]
      | cons b z => simp +contextual [eq_comm]
    · simp [hc]

theorem unserializeMemberName_some_iff {name x r : Bytes} (hname : chQuote ∉ name) :
    unserializeMemberName name x = .ok (some r) ↔
      ∃ y, x = chQuote :: (name ++ chQuote :: y) ∧ colon y () r := by
  constructor
  · intro h
    cases x with
    | nil => cases h
    | cons b x =>
      by_cases hb : b = chQuote
      · subst hb
        obtain ⟨o, hmatch, h⟩ := of_bind_ok h
        cases o with
        | none => cases h
        | some y =>
          obtain ⟨r', hcolon, h⟩ := of_bind_ok h
          cases h
          exact ⟨y, by rw [(matchName_some_iff hname).1 hmatch], parseColon_iff.1 hcolon⟩
      · rw [unserializeMemberName, if_pos hb] at h
        cases h
  · rintro ⟨y, rfl, hcolon⟩
    have hmatch := (matchName_some_iff (r := y) hname).2 rfl
    simp only [unserializeMemberName, ne_eq, not_true_eq_false, if_false, hmatch, bind, Except.bind,
      parseColon_iff.2 hcolon]
    rfl

theorem unserializeMemberName_none_iff {name x : Bytes} :
    unserializeMemberName name x = .ok none ↔
      ∃ y, x = chQuote :: y ∧ matchName name y = .ok none := by
  constructor
  · intro h
    cases x with
    | nil => cases h
    | cons b x =>
      by_cases hb : b = chQuote
      · subst hb
        obtain ⟨o, hmatch, h⟩ := of_bind_ok h
        cases o with
        | none => exact ⟨x, rfl, hmatch⟩
        | some y =>
          obtain ⟨r', -, h⟩ := of_bind_ok h
          cases h
      · rw [unserializeMemberName, if_pos hb] at h
        cases h
  · rintro ⟨y, rfl, hmatch⟩
    simp only [unserializeMemberName, ne_eq, not_true_eq_false, if_false, hmatch, bind, Except.bind]
    rfl

variable {m : ObjectMember α} {t t' : α} {x r : Bytes}

/-- The member that is looked for. -/
theorem unserializeMember_some_iff (hm : chQuote ∉ m.name) :
    unserializeMember m t x = .ok (some (t', r)) ↔
      ∃ y y', x = chQuote :: (m.name ++ chQuote :: y) ∧ colon y () y' ∧ m.read t y' = .ok (t', r) := by
  constructor
  · intro h
    obtain ⟨o, hname, h⟩ := of_bind_ok h
    cases o with
    | none => cases h
    | some y' =>
      obtain ⟨p, hread, h⟩ := of_bind_ok h
      cases h
      obtain ⟨y, rfl, hcolon⟩ := (unserializeMemberName_some_iff hm).1 hname
      exact ⟨y, y', rfl, hcolon, hread⟩
  · rintro ⟨y, y', rfl, hcolon, hread⟩
    rw [unserializeMember, (unserializeMemberName_some_iff hm).2 ⟨y, rfl, hcolon⟩]
    simp only [bind, Except.bind, hread]
    rfl

/-- Another one. -/
theorem unserializeMember_none_iff :
    unserializeMember m t x = .ok none ↔ ∃ y, x = chQuote :: y ∧ matchName m.name y = .ok none := by
  rw [← unserializeMemberName_none_iff]
  constructor
  · intro h
    obtain ⟨o, hname, h⟩ := of_bind_ok h
    cases o with
    | none => exact hname
    | some y' =>
      obtain ⟨p, -, h⟩ := of_bind_ok h
      cases h
  · intro h
    rw [unserializeMember, h]
    rfl

/-- A reader that takes a quoted text first. -/
def Quoted (R : Reading UInt8 α) : Prop :=
  ∀ x a r, R x a r → r ≠ [] → ∃ u w, x = chQuote :: (u ++ chQuote :: (w ++ r))

theorem quoted_andThen {β : Type} {R : Reading UInt8 β} {S : β → Reading UInt8 α}
    (hR : ∀ x b y, R x b y → ∃ u, x = chQuote :: (u ++ chQuote :: y)) (hS : ∀ b, Local (S b)) :
    Quoted (andThen R S) := by
  rintro x a r ⟨b, y, hx, hy⟩ hr
  obtain ⟨u, rfl⟩ := hR x b y hx
  obtain ⟨w, rfl, -⟩ := hS b y a r hy hr
  exact ⟨u, w, rfl⟩

/-- Such a reader takes all that the comparison with another name looked at. -/
theorem local_otherName {R : Reading UInt8 α} (h : Local R) (hq : Quoted R) :
    Local (guarded (fun x => unserializeMember m t x = .ok none) R) := by
  refine h.guarded fun u r r' a hr' hR hnone => ?_
  by_cases hr : r = []
  · subst hr
    rw [List.head?_eq_none_iff.1 hr']
    exact hnone
  · obtain ⟨v, w, hu⟩ := hq _ a r hR hr
    obtain rfl : u = chQuote :: (v ++ chQuote :: w) := by
      refine (List.append_left_inj r).1 ?_
      rw [hu]
      simp
    obtain ⟨y, hy, hmatch⟩ := unserializeMember_none_iff.1 hnone
    obtain rfl : y = v ++ chQuote :: (w ++ r) := by simpa using hy.symm
    refine unserializeMember_none_iff.2 ⟨v ++ chQuote :: (w ++ r'), by simp, ?_⟩
    exact matchName_none_congr hmatch

theorem found_iff (hm : chQuote ∉ m.name) (x : Bytes) (t' : α) (r : Bytes) :
    andThen (fun x (_ : Unit) r => x = (chQuote :: m.name) ++ chQuote :: r ∧ () = ())
      (fun _ => andThen colon fun _ => reads (m.read t)) x t' r ↔
    unserializeMember m t x = .ok (some (t', r)) := by
  rw [unserializeMember_some_iff hm]
  simp only [Reading.andThen, reads]
  constructor
  · rintro ⟨_, y, ⟨rfl, -⟩, _, y', hcolon, hread⟩
    exact ⟨y, y', rfl, hcolon, hread⟩
  · rintro ⟨y, y', rfl, hcolon, hread⟩
    exact ⟨(), y, ⟨rfl, trivial⟩, (), y', hcolon, hread⟩

theorem local_unserializeMember (hm : chQuote ∉ m.name) (hread : Local (reads (m.read t))) :
    Local (fun x (t' : α) r => unserializeMember m t x = .ok (some (t', r))) := by
  have hname : Local (fun x (_ : Unit) r => x = (chQuote :: m.name) ++ chQuote :: r ∧ () = ()) :=
    (closed_text (P := fun _ => True) _ trivial ()).local
  exact (hname.andThen fun _ => local_colon.andThen fun _ => hread).congr (found_iff hm)

theorem quoted_unserializeMember (hm : chQuote ∉ m.name) (hread : Local (reads (m.read t))) :
    Quoted (fun x (t' : α) r => unserializeMember m t x = .ok (some (t', r))) := by
  intro x t' r h
  have hquoted := quoted_andThen (R := fun x (_ : Unit) r => x = (chQuote :: m.name) ++ chQuote :: r ∧ () = ())
    (fun x _ y hx => ⟨m.name, hx.1⟩) (fun _ => local_colon.andThen fun _ => hread)
  exact hquoted x t' r ((found_iff hm x t' r).2 h)

end Members

/-! ## Objects -/

/-- What a list of members has to be for the decoder to look no further than it reads. -/
def LocalMembers {α : Type} (ms : List (ObjectMember α)) : Prop :=
  ∀ m ∈ ms, chQuote ∉ m.name ∧ ∀ t, Local (reads (m.read t))

section Objects

variable {α : Type}

/-- `parse_space`, to the end of the text too. -/
theorem local_parseSpace : Local (fun x (_ : Unit) r => parseSpace false x = r) :=
  local_space.congr_of_ne fun _ _ _ hr => and_iff_right hr

theorem quoted_parseString (x : Bytes) (_ : Unit) (y : Bytes) (h : parseString x = .ok y) :
    ∃ u, x = chQuote :: (u ++ chQuote :: y) := by
  obtain ⟨z, rfl, hz⟩ := parseString_iff.1 h
  obtain ⟨u, c, rfl, rfl, -⟩ := closed_skipped z () y hz
  exact ⟨u, rfl⟩

theorem searchMembers_nil_iff {t t' : α} {x r : Bytes} :
    andThen (skips parseString) (fun _ => andThen colon fun _ => andThen (skips parseValue) fun _ =>
      mapped (fun _ => t) fun x (_ : Unit) r => parseSpace false x = r) x t' r ↔
    searchMembers [] t x = .ok (t', r) := by
  simp only [searchMembers, bind_ok_iff, parseMember, parseMemberWith_iff]
  simp only [Reading.andThen, Reading.mapped, skips]
  constructor
  · rintro ⟨_, y, hstring, _, y', hcolon, _, z, hvalue, _, rfl, rfl⟩
    exact ⟨z, ⟨y, y', hstring, hcolon, hvalue⟩, rfl⟩
  · rintro ⟨z, ⟨y, y', hstring, hcolon, hvalue⟩, h⟩
    cases h
    exact ⟨(), y, hstring, (), y', hcolon, (), z, hvalue, (), rfl, rfl⟩

theorem searchMembers_cons_iff {m : ObjectMember α} {ms : List (ObjectMember α)} {t t' : α}
    {x r : Bytes} : searchMembers (m :: ms) t x = .ok (t', r) ↔
      unserializeMember m t x = .ok (some (t', r)) ∨
      (unserializeMember m t x = .ok none ∧ searchMembers ms t x = .ok (t', r)) := by
  rw [searchMembers, bind_ok_iff]
  constructor
  · rintro ⟨o, hmember, h⟩
    cases o with
    | none => exact .inr ⟨hmember, h⟩
    | some p =>
      cases h
      exact .inl hmember
  · rintro (h | ⟨hmember, h⟩)
    · exact ⟨_, h, rfl⟩
    · exact ⟨_, hmember, h⟩

theorem local_searchMembers : ∀ {ms : List (ObjectMember α)}, LocalMembers ms → ∀ t : α,
    Local (reads (searchMembers ms t)) ∧ Quoted (reads (searchMembers ms t))
  | [], _, t => by
    have hrest := local_colon.andThen fun _ => local_parseValue.andThen fun _ =>
      local_parseSpace.mapped fun _ => t
    refine ⟨(closed_parseString.local.andThen fun _ => hrest).congr fun x t' r => searchMembers_nil_iff,
      fun x t' r h => ?_⟩
    exact quoted_andThen quoted_parseString (fun _ => hrest) x t' r (searchMembers_nil_iff.2 h)
  | m :: ms, h, t => by
    obtain ⟨⟨hm, hread⟩, hms⟩ := List.forall_mem_cons.1 h
    obtain ⟨hlocal, hquoted⟩ := local_searchMembers hms t
    refine ⟨((local_unserializeMember hm (hread t)).either (local_otherName hlocal hquoted)).congr
      fun x t' r => searchMembers_cons_iff.symm, fun x t' r hx hr => ?_⟩
    rcases searchMembers_cons_iff.1 hx with hx | ⟨-, hx⟩
    · exact quoted_unserializeMember hm (hread t) x t' r hx hr
    · exact hquoted x t' r hx hr

theorem nextMember_iff {all : List (ObjectMember α)} {m : ObjectMember α}
    {ms ms' : List (ObjectMember α)} {t t' : α} {x r : Bytes} :
    nextMember all m ms t x = .ok (ms', t', r) ↔
      (unserializeMember m t x = .ok (some (t', r)) ∧ ms' = ms) ∨
      (unserializeMember m t x = .ok none ∧ searchMembers all t x = .ok (t', r) ∧ ms' = m :: ms) := by
  rw [nextMember, bind_ok_iff]
  constructor
  · rintro ⟨o, hmember, h⟩
    cases o with
    | none =>
      obtain ⟨p, hsearch, h⟩ := of_bind_ok h
      cases h
      exact .inr ⟨hmember, hsearch, rfl⟩
    | some p =>
      cases h
      exact .inl ⟨hmember, rfl⟩
  · rintro (⟨hmember, rfl⟩ | ⟨hmember, hsearch, rfl⟩)
    · exact ⟨_, hmember, rfl⟩
    · refine ⟨_, hmember, ?_⟩
      simp only [hsearch, bind, Except.bind]
      rfl

theorem local_nextMember {all : List (ObjectMember α)} (hall : LocalMembers all) {m : ObjectMember α}
    (hm : m ∈ all) (ms : List (ObjectMember α)) (t : α) :
    Local (fun x (p : List (ObjectMember α) × α) r => nextMember all m ms t x = .ok (p.1, p.2, r)) := by
  obtain ⟨hname, hread⟩ := hall m hm
  obtain ⟨hlocal, hquoted⟩ := local_searchMembers hall t
  refine (((local_unserializeMember hname (hread t)).mapped (Prod.mk ms)).either
    ((local_otherName (m := m) (t := t) hlocal hquoted).mapped (Prod.mk (m :: ms)))).congr
      fun x p r => ?_
  rw [nextMember_iff]
  simp only [Reading.either, Reading.mapped, guarded, reads]
  constructor
  · rintro (⟨t', h, rfl⟩ | ⟨t', ⟨hnone, h⟩, rfl⟩)
    · exact .inl ⟨h, rfl⟩
    · exact .inr ⟨hnone, h, rfl⟩
  · rintro (⟨h, hp⟩ | ⟨hnone, h, hp⟩)
    · exact .inl ⟨p.2, h, Prod.ext hp.symm rfl⟩
    · exact .inr ⟨p.2, ⟨hnone, h⟩, Prod.ext hp.symm rfl⟩

/-! ### The end of the list -/

theorem skipMembers_succ_iff {fuel : Nat} {x r : Bytes} : skipMembers (fuel + 1) x = .ok r ↔
    ∃ y, parseMember x = .ok y ∧ ((parseSpace false y = r ∧ r.head? = some chRBrace) ∨
      ∃ y', parseSpace false y = chComma :: y' ∧ skipMembers fuel (parseSpace false y') = .ok r) := by
  rw [skipMembers, bind_ok_iff]
  refine exists_congr fun y => and_congr Iff.rfl ?_
  cases parseSpace false y with
  | nil =>
    refine iff_of_false (by simp) ?_
    rintro (⟨rfl, h⟩ | ⟨y', h, -⟩)
    · cases h
    · cases h
  | cons b y' =>
    have hne : ¬chComma = chRBrace := by decide
    dsimp only
    by_cases hb : b = chRBrace
    · subst hb
      simp only [if_true, Except.ok.injEq, List.cons.injEq, Ne.symm hne, false_and, exists_false, or_false]
      constructor
      · rintro rfl
        exact ⟨rfl, rfl⟩
      · exact fun h => h.1
    · by_cases hc : b = chComma
      · subst hc
        simp only [hb, if_false, ne_eq, not_true_eq_false, List.cons.injEq, true_and, exists_eq_left']
        rw [or_iff_right]
        rintro ⟨rfl, h⟩
        exact hb (Option.some.inj h)
      · simp only [hb, hc, if_false, ne_eq, not_false_eq_true, if_true, List.cons.injEq, false_and,
          exists_false, or_false]
        refine iff_of_false (by simp) ?_
        rintro ⟨rfl, h⟩
        exact hb (Option.some.inj h)

theorem skipMembers_nil (fuel : Nat) (r : Bytes) : skipMembers fuel [] ≠ .ok r := by
  cases fuel <;> exact fun h => nomatch h

theorem skipMembers_fuel : ∀ {n m : Nat} {x r : Bytes}, skipMembers n x = .ok r → x.length ≤ m →
    skipMembers m x = .ok r
  | 0, m, x, r, h, _ => nomatch h
  | n + 1, 0, x, r, h, hm => by
    rw [List.eq_nil_of_length_eq_zero (Nat.le_zero.1 hm)] at h
    exact absurd h (skipMembers_nil _ r)
  | n + 1, m + 1, x, r, h, hm => by
    obtain ⟨y, hmember, h⟩ := skipMembers_succ_iff.1 h
    refine skipMembers_succ_iff.2 ⟨y, hmember, h.imp id fun ⟨y', hs, hrest⟩ =>
      ⟨y', hs, skipMembers_fuel hrest ?_⟩⟩
    have hlen₁ := local_parseMember.length_le (a := ()) hmember
    have hlen₂ := parseSpace_length y
    have hlen₃ := parseSpace_length y'
    rw [hs, List.length_cons] at hlen₂
    omega

theorem local_skipMembers : ∀ n : Nat, Local (skips (skipMembers n))
  | 0 => fun x a r h => nomatch h
  | n + 1 => by
    have hend := local_parseSpace.andThen fun _ => (local_done ()).guarded_head (· = some chRBrace)
    have hnext := local_parseSpace.andThen fun _ => (local_symbol chComma ()).andThen fun _ =>
      local_parseSpace.andThen fun _ => local_skipMembers n
    refine (local_parseMember.andThen fun _ => hend.either hnext).congr fun x _ r => ?_
    rw [skips, skipMembers_succ_iff]
    simp only [Reading.either, Reading.andThen, guarded, symbol, done, skips]
    constructor
    · rintro ⟨_, y, hmember, ⟨_, _, rfl, hhead, rfl, -⟩ | ⟨_, _, rfl, _, y', ⟨hs, -⟩, _, _, rfl, hrest⟩⟩
      · exact ⟨y, hmember, .inl ⟨rfl, hhead⟩⟩
      · exact ⟨y, hmember, .inr ⟨y', hs, hrest⟩⟩
    · rintro ⟨y, hmember, ⟨rfl, hhead⟩ | ⟨y', hs, hrest⟩⟩
      · exact ⟨(), y, hmember, .inl ⟨(), _, rfl, hhead, rfl, trivial⟩⟩
      · exact ⟨(), y, hmember, .inr ⟨(), _, rfl, (), y', ⟨hs, trivial⟩, (), _, rfl, hrest⟩⟩

theorem endMembers_iff {x r : Bytes} : endMembers x = .ok r ↔
    (parseSpace false x = r ∧ r.head? = some chRBrace) ∨
    ∃ y, parseSpace false x = y ∧ y.head? ≠ some chRBrace ∧ skipMembers y.length y = .ok r := by
  rw [endMembers]
  cases parseSpace false x with
  | nil =>
    refine iff_of_false (by simp) ?_
    rintro (⟨rfl, h⟩ | ⟨y, rfl, -, h⟩)
    · cases h
    · exact skipMembers_nil _ r h
  | cons b y =>
    dsimp only
    by_cases hb : b = chRBrace
    · subst hb
      simp only [if_true, Except.ok.injEq]
      constructor
      · rintro rfl
        exact .inl ⟨rfl, rfl⟩
      · rintro (⟨h, -⟩ | ⟨_, rfl, h, -⟩)
        · exact h
        · exact absurd rfl h
    · rw [if_neg hb, or_iff_right]
      · constructor
        · intro h
          exact ⟨_, rfl, by simpa using hb, h⟩
        · rintro ⟨_, rfl, -, h⟩
          exact h
      · rintro ⟨rfl, h⟩
        exact hb (Option.some.inj h)

theorem local_endMembers : Local (skips endMembers) := by
  have hskip : Local (fun x (_ : Unit) r => skipMembers x.length x = .ok r) :=
    local_fuel (F := fun n => skips (skipMembers n)) (k := 0) skipMembers_fuel local_skipMembers
  refine ((local_parseSpace.andThen fun _ => (local_done ()).guarded_head (· = some chRBrace)).either
    (local_parseSpace.andThen fun _ => hskip.guarded_head (· ≠ some chRBrace))).congr fun x _ r => ?_
  rw [skips, endMembers_iff]
  simp only [Reading.either, Reading.andThen, guarded, done]
  constructor
  · rintro (⟨_, _, rfl, hhead, rfl, -⟩ | ⟨_, _, rfl, hhead, hskip⟩)
    · exact .inl ⟨rfl, hhead⟩
    · exact .inr ⟨_, rfl, hhead, hskip⟩
  · rintro (⟨rfl, hhead⟩ | ⟨_, rfl, hhead, hskip⟩)
    · exact .inl ⟨(), _, rfl, hhead, rfl, trivial⟩
    · exact .inr ⟨(), _, rfl, hhead, hskip⟩

/-! ### The members -/

theorem unserializeMembers_cons_iff {all : List (ObjectMember α)} {m : ObjectMember α}
    {ms : List (ObjectMember α)} {fuel : Nat} {t t' : α} {x r : Bytes} :
    unserializeMembers all (fuel + 1) (m :: ms) t x = .ok (t', r) ↔
      ∃ ms' s y, nextMember all m ms t x = .ok (ms', s, y) ∧
        ((parseSpace false y = r ∧ r.head? = some chRBrace ∧ t' = s) ∨
          ∃ y', parseSpace false y = chComma :: y' ∧
            unserializeMembers all fuel ms' s (parseSpace false y') = .ok (t', r)) := by
  rw [unserializeMembers, bind_ok_iff]
  have hne : ¬chComma = chRBrace := by decide
  constructor
  · rintro ⟨⟨ms', s, y⟩, hnext, h⟩
    refine ⟨ms', s, y, hnext, ?_⟩
    dsimp only at h
    cases hs : parseSpace false y with
    | nil => rw [hs] at h; cases h
    | cons b y' =>
      simp only [hs] at h
      split_ifs at h with hc hb
      · exact .inr ⟨y', by rw [hc], h⟩
      · obtain ⟨rfl, rfl⟩ := Prod.mk.inj (Except.ok.inj h)
        exact .inl ⟨rfl, by rw [hb]; rfl, rfl⟩
  · rintro ⟨ms', s, y, hnext, h⟩
    refine ⟨_, hnext, ?_⟩
    dsimp only
    rcases h with ⟨hs, hhead, rfl⟩ | ⟨y', hs, h⟩
    · obtain ⟨r', rfl⟩ := List.head?_eq_some_iff.1 hhead
      rw [hs]
      rfl
    · rw [hs]
      exact h

theorem unserializeMembers_nil_iff {all : List (ObjectMember α)} {fuel : Nat} {t t' : α}
    {x r : Bytes} : unserializeMembers all (fuel + 1) [] t x = .ok (t', r) ↔
      endMembers x = .ok r ∧ t' = t := by
  rw [unserializeMembers, bind_ok_iff]
  constructor
  · rintro ⟨y, h, hr⟩
    cases hr
    exact ⟨h, rfl⟩
  · rintro ⟨h, rfl⟩
    exact ⟨r, h, rfl⟩

/-- What is left of the list stays a part of it. -/
theorem nextMember_subset {all : List (ObjectMember α)} {m : ObjectMember α} {ms ms' : List (ObjectMember α)} {t t' : α} {x r : Bytes}
    (hms : ∀ m' ∈ m :: ms, m' ∈ all) (h : nextMember all m ms t x = .ok (ms', t', r)) :
    ∀ m' ∈ ms', m' ∈ all := by
  rcases nextMember_iff.1 h with ⟨-, rfl⟩ | ⟨-, -, rfl⟩
  · exact fun m' hm' => hms m' (List.mem_cons_of_mem _ hm')
  · exact hms

/-- `null`, an object without members, or one with members. -/
theorem decodeObject_iff {all : List (ObjectMember α)} {deflt t t' : α} {x r : Bytes} :
    decodeObject all deflt t x = .ok (t', r) ↔
      (x = [chN, 0x75, 0x6c] ++ 0x6c :: r ∧ t' = deflt) ∨
      ∃ y, x = chLBrace :: y ∧ ((parseSpace false y = chRBrace :: r ∧ t' = t) ∨
        ∃ z w, parseSpace false y = z ∧ z ≠ [] ∧ z.head? ≠ some chRBrace ∧
          unserializeMembers all z.length all t z = .ok (t', w) ∧ parseSpace false w = chRBrace :: r) := by
  unfold decodeObject
  refine nullOr_iff.trans (or_congr Iff.rfl ?_)
  cases x with
  | nil => simp
  | cons b y =>
    by_cases hb : b = chLBrace
    · subst hb
      have hn : ¬chLBrace = chN := by decide
      simp only [List.head?_cons, ne_eq, Option.some.injEq, hn, not_false_eq_true, true_and,
        not_true_eq_false, if_false, List.cons.injEq, exists_eq_left']
      cases parseSpace false y with
      | nil => simp
      | cons c z =>
        dsimp only
        by_cases hc : c = chRBrace
        · subst hc
          rw [if_pos rfl, Except.ok.injEq, Prod.mk.injEq]
          constructor
          · rintro ⟨rfl, rfl⟩
            exact .inl ⟨rfl, rfl⟩
          · rintro (⟨h, rfl⟩ | ⟨_, w, rfl, -, h, -⟩)
            · exact ⟨rfl, (List.cons.inj h).2⟩
            · exact absurd rfl h
        · rw [if_neg hc, bind_ok_iff]
          simp only [List.cons.injEq, hc, false_and, false_or]
          constructor
          · rintro ⟨⟨t', w⟩, hmembers, h⟩
            dsimp only at h
            cases hs : parseSpace false w with
            | nil => rw [hs] at h; cases h
            | cons c' w' =>
              simp only [hs] at h
              split_ifs at h with hc'
              obtain ⟨rfl, rfl⟩ := Prod.mk.inj (Except.ok.inj h)
              exact ⟨_, w, rfl, List.cons_ne_nil _ _, by simpa using hc, hmembers, by rw [hs, hc']⟩
          · rintro ⟨_, w, rfl, -, -, hmembers, hs⟩
            refine ⟨_, hmembers, ?_⟩
            dsimp only
            rw [hs]
            rfl
    · simp [hb]

section Loop

variable {all : List (ObjectMember α)} (hall : LocalMembers all)

include hall

theorem unserializeMembers_fuel : ∀ {n m : Nat} {ms : List (ObjectMember α)} {t t' : α} {x r : Bytes},
    (∀ m' ∈ ms, m' ∈ all) → unserializeMembers all n ms t x = .ok (t', r) → x.length ≤ m →
      unserializeMembers all m ms t x = .ok (t', r)
  | 0, m, ms, t, t', x, r, _, h, _ => nomatch h
  | n + 1, 0, [], t, t', x, r, _, h, hm => by
    rw [List.eq_nil_of_length_eq_zero (Nat.le_zero.1 hm)] at h
    cases h
  | n + 1, m + 1, [], t, t', x, r, _, h, _ =>
    unserializeMembers_nil_iff.2 (unserializeMembers_nil_iff.1 h)
  | n + 1, 0, m' :: ms, t, t', x, r, _, h, hm => by
    rw [List.eq_nil_of_length_eq_zero (Nat.le_zero.1 hm)] at h
    cases h
  | n + 1, m + 1, m' :: ms, t, t', x, r, hms, h, hm => by
    obtain ⟨ms', s, y, hnext, h⟩ := unserializeMembers_cons_iff.1 h
    refine unserializeMembers_cons_iff.2 ⟨ms', s, y, hnext, h.imp id fun ⟨y', hs, hrest⟩ =>
      ⟨y', hs, unserializeMembers_fuel (nextMember_subset hms hnext) hrest ?_⟩⟩
    have hlen₁ := (local_nextMember hall (hms m' List.mem_cons_self) ms t).length_le (a := (ms', s)) hnext
    have hlen₂ := parseSpace_length y
    have hlen₃ := parseSpace_length y'
    rw [hs, List.length_cons] at hlen₂
    omega

theorem local_unserializeMembers : ∀ (n : Nat) (ms : List (ObjectMember α)) (t : α),
    (∀ m ∈ ms, m ∈ all) → Local (reads (unserializeMembers all n ms t))
  | 0, ms, t, _ => fun x a r h => nomatch h
  | n + 1, [], t, _ => by
    refine (local_endMembers.mapped fun _ => t).congr fun x t' r => ?_
    rw [reads, unserializeMembers_nil_iff]
    simp only [Reading.mapped, skips, exists_const, eq_comm]
  | n + 1, m :: ms, t, hms => by
    -- the rest of the list is one that the loop can come to
    have hrest (p : List (ObjectMember α) × α) : Local (guarded (fun _ => ∀ m' ∈ p.1, m' ∈ all)
        (reads (unserializeMembers all n p.1 p.2))) := by
      by_cases hp : ∀ m' ∈ p.1, m' ∈ all
      · exact (local_unserializeMembers n p.1 p.2 hp).guarded_head fun _ => ∀ m' ∈ p.1, m' ∈ all
      · exact fun x a r h => absurd h.1 hp
    have hend (p : List (ObjectMember α) × α) := local_parseSpace.andThen fun _ =>
      (local_done p.2).guarded_head (· = some chRBrace)
    have hnext (p : List (ObjectMember α) × α) := local_parseSpace.andThen fun _ =>
      (local_symbol chComma ()).andThen fun _ => local_parseSpace.andThen fun _ => hrest p
    refine ((local_nextMember hall (hms m List.mem_cons_self) ms t).andThen fun p =>
      (hend p).either (hnext p)).congr fun x t' r => ?_
    rw [reads, unserializeMembers_cons_iff]
    simp only [Reading.either, Reading.andThen, guarded, symbol, done, reads]
    constructor
    · rintro ⟨⟨ms', s⟩, y, h, ⟨_, _, rfl, hhead, rfl, rfl⟩ |
        ⟨_, _, rfl, _, y', ⟨hs, -⟩, _, _, rfl, -, hrest⟩⟩
      · exact ⟨ms', _, y, h, .inl ⟨rfl, hhead, rfl⟩⟩
      · exact ⟨ms', s, y, h, .inr ⟨y', hs, hrest⟩⟩
    · rintro ⟨ms', s, y, h, ⟨rfl, hhead, rfl⟩ | ⟨y', hs, hrest⟩⟩
      · exact ⟨(ms', _), y, h, .inl ⟨(), _, rfl, hhead, rfl, rfl⟩⟩
      · exact ⟨(ms', s), y, h, .inr ⟨(), _, rfl, (), y', ⟨hs, trivial⟩, (), _, rfl,
          nextMember_subset hms h, hrest⟩⟩

theorem closed_decodeObject (deflt t : α) : Closed Solid (reads (decodeObject all deflt t)) := by
  have hmembers : Local (fun x (t' : α) r => unserializeMembers all x.length all t x = .ok (t', r)) :=
    local_fuel (F := fun n => reads (unserializeMembers all n all t)) (k := 0)
      (unserializeMembers_fuel hall fun _ h => h) fun n =>
        local_unserializeMembers hall n all t fun _ h => h
  have hempty : Closed Solid (andThen space fun _ => symbol chRBrace t) :=
    local_space.andThen_closed fun _ => closed_symbol (by decide) t
  have hfull : Closed Solid (andThen space fun _ => andThen (guarded (fun x => x.head? ≠ some chRBrace)
      fun x (t' : α) r => unserializeMembers all x.length all t x = .ok (t', r)) fun t' =>
        andThen space fun _ => symbol chRBrace t') :=
    local_space.andThen_closed fun _ => (hmembers.guarded_head (· ≠ some chRBrace)).andThen_closed
      fun t' => local_space.andThen_closed fun _ => closed_symbol (by decide) t'
  refine ((closed_null deflt).either ((local_symbol chLBrace ()).andThen_closed fun _ =>
    hempty.either hfull)).congr fun x t' r => ?_
  rw [reads, decodeObject_iff]
  simp only [Reading.either, Reading.andThen, guarded, space, symbol]
  refine or_congr Iff.rfl ⟨?_, ?_⟩
  · rintro ⟨_, y, ⟨rfl, -⟩, ⟨_, _, ⟨-, hs⟩, rfl, rfl⟩ | ⟨_, z, ⟨hne, hs⟩, _, w, ⟨hhead, hmembers⟩, _, _,
      ⟨-, hend⟩, rfl, rfl⟩⟩
    · exact ⟨y, rfl, .inl ⟨hs, rfl⟩⟩
    · exact ⟨y, rfl, .inr ⟨z, w, hs, hne, hhead, hmembers, hend⟩⟩
  · rintro ⟨y, rfl, ⟨hs, rfl⟩ | ⟨z, w, hs, hne, hhead, hmembers, hend⟩⟩
    · exact ⟨(), y, ⟨rfl, trivial⟩, .inl ⟨(), _, ⟨List.cons_ne_nil _ _, hs⟩, rfl, rfl⟩⟩
    · exact ⟨(), y, ⟨rfl, trivial⟩, .inr ⟨(), z, ⟨hne, hs⟩, t', w, ⟨hhead, hmembers⟩, (), _,
        ⟨List.cons_ne_nil _ _, hend⟩, rfl, rfl⟩⟩

end Loop

/-- A field that is read into. -/
theorem local_field {β : Type} (name : Bytes) {get : α → β} {put : β → α → α} {read : Reader β}
    (h : ∀ b, Local (reads (read b))) (t : α) :
    Local (reads ((ObjectMember.field name get put read).read t)) :=
  ((h (get t)).mapped fun b => put b t).congr fun _ _ _ => map_ok_iff.symm

end Objects

end LeveldbDaemon.Json
