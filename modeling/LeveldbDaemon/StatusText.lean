import LeveldbDaemon.Answers
import LeveldbDaemon.Json.Skipping
import LeveldbDaemon.Json.Strings
import LeveldbDaemon.Lib.JsonMachine
import Mathlib.Algebra.Order.BigOperators.Group.List

/-!
# The text of a `rep_status` answer

`rep_status::request` puts its answer together by hand and `raw_value` copies it into the response
line. The current key of each client goes through the JSON encoder, the id does not: it is copied
twice, as the name of the client's member and into its `id` field.

The answer is the object it is meant to be exactly when every id can stand between quotes as it is and
what is written of each current key is well-formed (`answersJson_iff`). One direction builds the
object. In the other one the machine of `Lib.JsonMachine` reads the answer: an id with a quote of
its own stops it at one of the two copies, and an escape makes a name shorter than the id.
-/

namespace LeveldbDaemon

open Lib Lib.JsonText Json

/-! ## What the answer should be -/

/-- Every client is registered under its own id. -/
def Registered (rep : Replication) : Prop := ∀ id ∈ rep.ids, (rep.client id).id = id

/-- The name and the field `id` denote this id. -/
def Describes (m : Member Value) (id : Bytes) : Prop :=
  m.name.bytes = id ∧ ∃ inner fields, m.value = .object inner fields ∧
    ∃ f ∈ fields, f.name.bytes = ascii "id" ∧ ∃ s : Literal, f.value = .string s ∧ s.bytes = id

/-- The answer is an object with one member for each client, and it has no line break in it. -/
def AnswersJson (rep : Replication) : Prop :=
  ∃ T : Object, utf8Text T.text = repStatusRequest rep ∧ ¬[chCr, chLf] <:+: repStatusRequest rep ∧
    ∃ ids : List Bytes, ids.Perm rep.ids ∧ List.Forall₂ Describes T.members ids

/-- Characters that stand for themselves between quotes. -/
def PlainText (v : Bytes) : Prop := ∃ s : List Char, utf8Text s = v ∧ ∀ c ∈ s, IsPlain c

/-! ## Registration -/

theorem registered_empty : Registered .empty := fun _ h => nomatch h

theorem Registered.setClient {rep : Replication} (h : Registered rep) {id : Bytes} {cl : Client}
    (hcl : cl.id = id) : Registered (rep.setClient id cl) := by
  intro id' hid'
  by_cases heq : id' = id
  · rw [heq, Replication.client_setClient_self]
    exact hcl
  · rw [Replication.client_setClient_ne rep heq]
    exact h id' hid'

theorem Registered.erase {rep : Replication} (h : Registered rep) (id : Bytes) :
    Registered (rep.erase id) := fun id' hid' => h id' (List.mem_of_mem_erase hid')

theorem Registered.insertNew {rep : Replication} (h : Registered rep) (id : Bytes) :
    Registered (rep.insertNew id) ∧ ((rep.insertNew id).client id).id = id := by
  unfold Replication.insertNew
  split_ifs with hid
  · exact ⟨h, h id hid⟩
  · refine ⟨fun id' hid' => ?_, ?_⟩
    · by_cases heq : id' = id
      · simp [heq, Client.new]
      · have hmem : id' ∈ rep.ids := by simpa [heq] using hid'
        simpa [heq] using h id' hmem
    · simp [Client.new]

theorem Registered.register {rep : Replication} (h : Registered rep) (id : Bytes) (state : String) :
    Registered (rep.register id state).1 ∧
      ((rep.register id state).2 ≠ .stopped → ((rep.register id state).1.client id).id = id) := by
  have hbase : Registered (if id ∈ rep.ids ∧ state = "start" then rep.erase id else rep) := by
    split_ifs
    · exact h.erase id
    · exact h
  unfold Replication.register
  by_cases hstop : id ∈ rep.ids ∧ state = "stop"
  · rw [if_pos hstop]
    exact ⟨h.erase id, fun hne => absurd rfl hne⟩
  · rw [if_neg hstop]
    dsimp only
    generalize (if id ∈ rep.ids ∧ state = "start" then rep.erase id else rep) = base at hbase ⊢
    generalize (if id ∉ rep.ids ∧ state = "auto" then "start" else state) = state'
    obtain ⟨hnew, hid⟩ := hbase.insertNew id
    split_ifs
    · exact ⟨hbase, fun hne => absurd rfl hne⟩
    · exact ⟨hnew.setClient hid, fun _ => by rw [Replication.client_setClient_self]; exact hid⟩
    · exact ⟨hnew.setClient hid, fun _ => by rw [Replication.client_setClient_self]; exact hid⟩

theorem Client.id_pushNextPortion {db : Db} {cl : Client} {conn : Conn} {key : Bytes}
    {r : Bytes × Client × Conn} (h : cl.pushNextPortion db conn key = .ok r) : r.2.1.id = cl.id := by
  obtain ⟨data, -, rfl⟩ := pushNextPortion_ok h
  unfold Client.afterPortion
  split <;> rfl

theorem Client.id_syncInitialLoop {db : Db} : ∀ (n : Nat) {key : Bytes} {cl : Client} {conn : Conn}
    {r : Client × Conn}, syncInitialLoop db n key cl conn = .ok r → r.1.id = cl.id
  | 0, _, _, _, _, h => by
    cases h
    rfl
  | n + 1, key, cl, conn, r, h => by
    cases hpush : cl.pushNextPortion db conn key with
    | error f => simp [syncInitialLoop, hpush, bind, Except.bind] at h
    | ok p =>
      simp only [syncInitialLoop, hpush, bind, Except.bind] at h
      exact (id_syncInitialLoop n h).trans (id_pushNextPortion hpush)

theorem Client.id_pushQueueItems {cl : Client} {conn : Conn} {r : Bool × Client × Conn}
    (h : cl.pushQueueItems conn = .ok r) : r.2.1.id = cl.id := by
  unfold pushQueueItems at h
  split_ifs at h
  · cases h
    rfl
  · cases h
    rfl
  · cases h
    rfl
  · cases hloop : pushLoop (cl.queue.drop cl.queuePipelined.toNat) cl.queuePipelined conn with
    | error f => simp [hloop, bind, Except.bind] at h
    | ok p =>
      simp only [hloop, bind, Except.bind, pure, Except.pure, Except.ok.injEq] at h
      rw [← h]

theorem Client.id_syncInitial {db : Db} {cl : Client} {conn : Conn} {r : Client × Conn}
    (h : cl.syncInitial db conn = .ok r) : r.1.id = cl.id := by
  cases hloop : syncInitialLoop db pipelineSize [] cl conn with
  | error f => simp [syncInitial, hloop, bind, Except.bind] at h
  | ok p =>
    simp only [syncInitial, hloop, bind, Except.bind, pure, Except.pure, Except.ok.injEq] at h
    have hid := id_syncInitialLoop pipelineSize hloop
    rw [← h]
    exact hid

theorem Client.id_syncQueue {cl : Client} {conn : Conn} {r : Client × Conn}
    (h : cl.syncQueue conn = .ok r) : r.1.id = cl.id := by
  cases hpush : ({ cl with state := .running, queuePipelined := 0 } : Client).pushQueueItems conn with
  | error f => simp [syncQueue, hpush, bind, Except.bind] at h
  | ok p =>
    simp only [syncQueue, hpush, bind, Except.bind, pure, Except.pure, Except.ok.injEq] at h
    have hid := id_pushQueueItems hpush
    rw [← h]
    exact hid

/-- **Clients stay registered under their own ids.** -/
theorem Registered.addClient {rep rep' : Replication} (hrep : Registered rep) {db : Db} {id : Bytes}
    {state : String} {conn conn' : Conn} (h : rep.addClient db id state conn = .ok (rep', conn')) :
    Registered rep' := by
  obtain ⟨hreg, hid⟩ := hrep.register id state
  unfold Replication.addClient at h
  cases hr : rep.register id state with
  | mk rep₁ registration =>
    rw [hr] at h hreg hid
    cases registration with
    | stopped =>
      cases h
      exact hreg
    | syncInitial =>
      cases hsync : (rep₁.client id).syncInitial db conn with
      | error f => simp [hsync, bind, Except.bind] at h
      | ok p =>
        simp only [hsync, bind, Except.bind, pure, Except.pure, Except.ok.injEq, Prod.mk.injEq] at h
        obtain ⟨rfl, -⟩ := h
        exact hreg.setClient ((Client.id_syncInitial hsync).trans (hid (by simp)))
    | syncQueue =>
      cases hsync : (rep₁.client id).syncQueue conn with
      | error f => simp [hsync, bind, Except.bind] at h
      | ok p =>
        simp only [hsync, bind, Except.bind, pure, Except.pure, Except.ok.injEq, Prod.mk.injEq] at h
        obtain ⟨rfl, -⟩ := h
        exact hreg.setClient ((Client.id_syncQueue hsync).trans (hid (by simp)))

/-! ## The answer as characters -/

/-- A field without blanks. -/
def field (name : Literal) (v : Value) : Member Value := ⟨[], name, [], [], v, []⟩

def ClientState.literal : ClientState → Literal
  | notReady => Literal.ofPlain ['n', 'o', 't', '_', 'r', 'e', 'a', 'd', 'y'] (forall_mem_of_all (by decide))
  | syncing => Literal.ofPlain ['s', 'y', 'n', 'c', 'i', 'n', 'g'] (forall_mem_of_all (by decide))
  | syncFinishing =>
    Literal.ofPlain ['s', 'y', 'n', 'c', '_', 'f', 'i', 'n', 'i', 's', 'h', 'i', 'n', 'g']
      (forall_mem_of_all (by decide))
  | running => Literal.ofPlain ['r', 'u', 'n', 'n', 'i', 'n', 'g'] (forall_mem_of_all (by decide))

/-- A client's part of the answer; the id is as it is copied. -/
structure StatusEntry where
  id : List Char
  state : ClientState
  queue : JsonText.Number
  current : Literal

namespace StatusEntry

/-- The fields behind the id. -/
def fields (e : StatusEntry) : List (Member Value) :=
  [field (Literal.ofPlain ['s', 't', 'a', 't', 'e'] (forall_mem_of_all (by decide))) (.string e.state.literal),
    field (Literal.ofPlain ['q', 'u', 'e', 'u', 'e'] (forall_mem_of_all (by decide))) (.number e.queue),
    field (Literal.ofPlain ['c', 'u', 'r', 'r', 'e', 'n', 't'] (forall_mem_of_all (by decide)))
      (.string e.current)]

/-- From the end of the name to the start of the id. -/
def opening : List Char := ['"', ':', '{', '"', 'i', 'd', '"', ':', '"']

def text (e : StatusEntry) : List Char :=
  '"' :: (e.id ++ (opening ++ (e.id ++ '"' :: ',' :: (joined (e.fields.map Member.text) ++ ['}']))))

end StatusEntry

/-- The decimal text of a queue length is a number. -/
theorem exists_number (n : Nat) : ∃ N : JsonText.Number, utf8Text N.text = decimalNat n := by
  by_cases hn : n = 0
  · exact ⟨⟨false, .zero, none, none⟩, by subst hn; rfl⟩
  · obtain ⟨d, ds, hrev, hd, hlt⟩ := reverse_digits_eq_cons hn
    have hdec : decimalNat n = (d :: ds).map digitChar := by
      rw [decimalNat, if_neg hn, ← List.map_reverse, hrev]
    have hfin : ∃ fs : Digits, fs.map Fin.val = ds := by
      refine ⟨ds.pmap (fun k hk => ⟨k, hk⟩) fun k hk => hlt k (List.mem_cons_of_mem d hk), ?_⟩
      rw [List.map_pmap, List.pmap_eq_self.2 fun k _ => rfl]
    obtain ⟨fs, rfl⟩ := hfin
    have hfirst : (⟨d, hlt d List.mem_cons_self⟩ : Fin 10) ≠ 0 := fun h => hd (congrArg Fin.val h)
    refine ⟨⟨false, .digits ⟨d, hlt d List.mem_cons_self⟩ hfirst fs, none, none⟩, ?_⟩
    have htext : (⟨false, .digits ⟨d, hlt d List.mem_cons_self⟩ hfirst fs, none, none⟩ : JsonText.Number).text =
        Digits.text (⟨d, hlt d List.mem_cons_self⟩ :: fs) := by
      simp [JsonText.Number.text, IntPart.text]
    have hdigit : ∀ k < 10, UInt8.ofNat (48 + k) = digitChar k := by decide
    rw [htext, utf8Text_digits, hdec, List.map_cons, List.map_cons, List.map_map]
    refine congrArg₂ _ (hdigit d (hlt d List.mem_cons_self)) (List.map_congr_left fun k _ => ?_)
    exact hdigit k.val k.isLt

namespace StatusEntry

/-- The entry is what is written for a client with this id. -/
def Shows (e : StatusEntry) (id : Bytes) (cl : Client) : Prop :=
  utf8Text e.id = id ∧ utf8Text e.text = chQuote :: id ++ chQuote :: chColon :: cl.writeStatus

theorem exists_shows {id : Bytes} {cl : Client} (hid : cl.id = id) (h : WellFormedUtf8 id)
    (hcur : WellFormedUtf8 (cut cl.current)) : ∃ e : StatusEntry, e.Shows id cl := by
  obtain ⟨s, rfl⟩ := h
  obtain ⟨N, hN⟩ := exists_number cl.queue.length
  obtain ⟨l, hl⟩ := (serializeKey_literal_iff cl.current).2 hcur
  refine ⟨⟨s, cl.state, N, l⟩, rfl, ?_⟩
  have hstate : utf8Text cl.state.literal.text = chQuote :: cl.state.text ++ [chQuote] := by
    cases cl.state <;> rfl
  have hfields : joined ((⟨s, cl.state, N, l⟩ : StatusEntry).fields.map Member.text) ++ ['}'] =
      ['"', 's', 't', 'a', 't', 'e', '"', ':'] ++ (cl.state.literal.text ++
        ([',', '"', 'q', 'u', 'e', 'u', 'e', '"', ':'] ++ (N.text ++
          ([',', '"', 'c', 'u', 'r', 'r', 'e', 'n', 't', '"', ':'] ++ (l.text ++ ['}']))))) := by
    have hblanks : Blanks.text [] = [] := rfl
    simp only [fields, field, List.map_cons, List.map_nil, joined, Member.text, Value.text, hblanks,
      List.nil_append, List.append_nil, List.cons_append, List.append_assoc]
    rfl
  rw [text, hfields]
  simp only [Client.writeStatus, hid, utf8Text_cons, utf8Text_append, hstate, hN, hl, List.append_assoc,
    List.cons_append]
  rfl

end StatusEntry

/-- The answer with these entries. -/
def statusText (es : List StatusEntry) : List Char :=
  '{' :: (joined (es.map StatusEntry.text) ++ ['}'])

section Answer

variable {rep : Replication}

/-- Whatever the answer says, it is well-formed only if the ids and what is written of the current keys
are. -/
theorem wellFormed_parts (h : WellFormedUtf8 (repStatusRequest rep)) :
    ∀ id ∈ rep.ids, WellFormedUtf8 id ∧ WellFormedUtf8 (cut (rep.client id).current) := by
  have hskip {b : UInt8} (hb : b < 0x80) {w : Bytes} (h : WellFormedUtf8 (b :: w)) : WellFormedUtf8 w :=
    ((wellFormedUtf8_cons_iff hb (v := [])).1 h).2
  have hitems : ∀ xs : List Bytes, WellFormedUtf8 (joinItems xs) → ∀ x ∈ xs, WellFormedUtf8 x := by
    intro xs
    induction xs with
    | nil => exact fun _ x hx => nomatch hx
    | cons x xs ih =>
      cases xs with
      | nil => exact fun h => List.forall_mem_singleton.2 h
      | cons x' xs =>
        intro h
        obtain ⟨hx, hxs⟩ := (wellFormedUtf8_cons_iff (by decide)).1 h
        exact List.forall_mem_cons.2 ⟨hx, ih hxs⟩
  intro id hid
  have hitem := hitems _ ((wellFormedUtf8_cons_iff (by decide)).1 (hskip (by decide) h)).1 _
    (List.mem_map_of_mem hid)
  obtain ⟨hwf, hrest⟩ := (wellFormedUtf8_cons_iff (by decide)).1 (hskip (by decide) hitem)
  refine ⟨hwf, ?_⟩
  have hstatus := hskip (by decide) hrest
  have hkey := serializeKey_append (rep.client id).current (ascii "\x7d")
  rw [Client.writeStatus, List.append_assoc, hkey, wellFormedUtf8_cons_iff (by decide)] at hstatus
  exact wellFormedUtf8_of_quoted keyFormat (u := []) hstatus.2

/-- The answer, entry by entry. -/
theorem exists_entries (hreg : Registered rep)
    (h : ∀ id ∈ rep.ids, WellFormedUtf8 id ∧ WellFormedUtf8 (cut (rep.client id).current)) :
    ∃ es : List StatusEntry, es.map (fun e => utf8Text e.id) = rep.ids ∧
      utf8Text (statusText es) = repStatusRequest rep := by
  have hentries : ∀ ids : List Bytes, (∀ id ∈ ids, id ∈ rep.ids) →
      ∃ es : List StatusEntry, es.map (fun e => utf8Text e.id) = ids ∧
        es.map (fun e => utf8Text e.text) =
          ids.map fun id => chQuote :: id ++ chQuote :: chColon :: (rep.client id).writeStatus := by
    intro ids
    induction ids with
    | nil => exact fun _ => ⟨[], rfl, rfl⟩
    | cons id ids ih =>
      intro hmem
      obtain ⟨hid, hids⟩ := List.forall_mem_cons.1 hmem
      obtain ⟨es, hnames, htexts⟩ := ih hids
      obtain ⟨e, hname, htext⟩ := StatusEntry.exists_shows (hreg id hid) (h id hid).1 (h id hid).2
      refine ⟨e :: es, ?_, ?_⟩
      · rw [List.map_cons, hname, hnames]
      · rw [List.map_cons, List.map_cons, htext, htexts]
  obtain ⟨es, hnames, htexts⟩ := hentries rep.ids fun _ hid => hid
  refine ⟨es, hnames, ?_⟩
  rw [statusText, utf8Text_cons, utf8Text_append, utf8Text_joined, List.map_map]
  exact congrArg (fun items => chLBrace :: (joinItems items ++ [chRBrace])) htexts

end Answer

/-! ## Reading the answer -/

section Reading

open Machine

variable {stack : List Bracket} {names : List (List Char)}

/-- What stands between the two copies of an id ends a name, or it stops the machine. -/
theorem inName_of_opening {mode : Mode} {t : List Char}
    (h : run ⟨mode, stack, names⟩ (StatusEntry.opening ++ t) ≠ none) : ∃ s, mode = .inName s := by
  cases mode with
  | inName s => exact ⟨s, rfl⟩
  | value | firstElement | firstName | name | escapeName | afterName | inString | escapeString | scalar
    | after => exact absurd rfl h

/-- A text that leads from the end of a name into another one has a colon in it, before anything that may
follow a value. -/
theorem stops_after {w : List Char} {m : Machine} {s : List Char}
    (h : run ⟨.afterName, stack, names⟩ w = some m) (hm : m.mode = .inName s) (stack' : List Bracket)
    (names' : List (List Char)) (t : List Char) : run ⟨.after, stack', names'⟩ (w ++ t) = none := by
  induction w with
  | nil =>
    cases h
    cases hm
  | cons c w ih =>
    by_cases hblank : IsBlank c
    · rw [run_cons (rests_afterName c hblank)] at h
      rw [List.cons_append, run_cons (rests_after c hblank)]
      exact ih h
    · by_cases hcolon : c = ':'
      · subst hcolon
        rfl
      · have hstep : step ⟨.afterName, stack, names⟩ c = none := by simp [step, hblank, hcolon]
        rw [run, hstep] at h
        cases h

theorem step_quote {mode : Mode} (hmode : mode = .firstName ∨ mode = .name) :
    step ⟨mode, stack, names⟩ '"' = some ⟨.inName [], stack, names⟩ := by
  rcases hmode with rfl | rfl <;> rfl

theorem run_opening (s : List Char) (stack : List Bracket) (names : List (List Char)) (t : List Char) :
    ∃ names', run ⟨.inName s, stack, names⟩ (StatusEntry.opening ++ t) =
      run ⟨.inString, .object :: stack, names'⟩ t := ⟨_, rfl⟩

/-- **No quote of its own.** Where the machine gets past both copies of an id, the id is what may stand
between quotes. -/
theorem body_of_run {mode : Mode} (hmode : mode = .firstName ∨ mode = .name) {s t : List Char}
    (h : run ⟨mode, stack, names⟩ ('"' :: (s ++ (StatusEntry.opening ++ (s ++ t)))) ≠ none) : Body s := by
  rw [run_cons (step_quote hmode), run_append] at h
  cases hfirst : run ⟨.inName [], stack, names⟩ s with
  | none =>
    rw [hfirst] at h
    exact absurd rfl h
  | some m =>
    rw [hfirst, Option.bind_some] at h
    obtain ⟨x, hx⟩ := inName_of_opening h
    rcases body_cases s with hs | ⟨u, hu, rfl⟩ | ⟨u, w, hu, rfl⟩
    · exact hs
    · -- the machine is in the middle of an escape
      rw [run_inName hu] at hfirst
      cases hfirst
      cases hx
    · -- behind the first quote a colon has to come, and there it must not behind the second one
      rw [run_inName hu] at hfirst
      obtain ⟨mode', stack', names'⟩ := m
      subst hx
      obtain ⟨names'', hopening⟩ := run_opening x stack' names' (u ++ '"' :: w ++ t)
      have hquote : run ⟨.inString, .object :: stack', names''⟩ ('"' :: (w ++ t)) =
          run ⟨.after, .object :: stack', names''⟩ (w ++ t) := rfl
      rw [hopening, List.append_assoc, run_inString hu, List.cons_append, hquote] at h
      exact absurd (stops_after hfirst rfl _ _ t) h

/-- An entry, when its id is what may stand between quotes. -/
theorem notes_entry {e : StatusEntry} (he : Body e.id) : Notes .object [] e.text [e.id] := by
  intro mode names d t hmode _
  have hopening (t : List Char) : run ⟨.inName e.id, [.object], names⟩ (StatusEntry.opening ++ t) =
      run ⟨.inString, [.object, .object], names ++ [e.id]⟩ t := rfl
  have hquote (t : List Char) : run ⟨.inString, [.object, .object], names ++ [e.id]⟩ ('"' :: ',' :: t) =
      run ⟨.name, [.object, .object], names ++ [e.id]⟩ t := rfl
  have hfields : run ⟨.name, [.object, .object], names ++ [e.id]⟩
      (joined (e.fields.map Member.text) ++ '}' :: d :: t) =
        run ⟨.after, [.object], names ++ [e.id] ++ e.fields.flatMap (noted [.object])⟩ (d :: t) :=
    run_joined (b := .object) (List.cons_ne_nil _ _) (fun m _ => notes_member (passes m.value)) (d :: t)
      (.inr rfl)
  rw [StatusEntry.text, List.cons_append, run_cons (step_quote hmode), List.append_assoc, run_inName he,
    List.nil_append, List.append_assoc, hopening, List.append_assoc, run_inString he, List.cons_append,
    List.cons_append, hquote, List.append_assoc]
  have hnone : names ++ [e.id] ++ e.fields.flatMap (noted [.object]) = names ++ [e.id] := List.append_nil _
  exact hfields.trans (congrArg (fun n => run ⟨.after, [.object], n⟩ (d :: t)) hnone)

/-- Behind the opening bracket. -/
theorem bodies_of_run {t : List Char} : ∀ {es : List StatusEntry} {mode : Mode} {names : List (List Char)},
    mode = .firstName ∨ mode = .name →
    run ⟨mode, [.object], names⟩ (joined (es.map StatusEntry.text) ++ t) ≠ none → ∀ e ∈ es, Body e.id
  | [], _, _, _, _ => fun _ he => nomatch he
  | [e], _, _, hmode, h => by
    rw [List.map_singleton, joined, StatusEntry.text] at h
    simp only [List.cons_append, List.append_assoc] at h
    exact List.forall_mem_singleton.2 (body_of_run hmode h)
  | e :: e' :: es, mode, names, hmode, h => by
    have htext : joined ((e :: e' :: es).map StatusEntry.text) ++ t =
        e.text ++ ',' :: (joined ((e' :: es).map StatusEntry.text) ++ t) := by
      rw [List.map_cons, List.map_cons, joined, List.append_assoc, List.cons_append]
      exact List.cons_ne_nil _ _
    rw [htext] at h
    have he : Body e.id := by
      have htext' := h
      rw [StatusEntry.text] at htext'
      simp only [List.cons_append, List.append_assoc] at htext'
      exact body_of_run hmode htext'
    rw [notes_entry he mode names ',' _ hmode (.inr (.inl rfl)), run_cons (step_comma .object)] at h
    exact List.forall_mem_cons.2 ⟨he, bodies_of_run (.inr rfl) h⟩

/-- **An object with the text of the answer has the ids for its names**, as they are written. -/
theorem names_of_text {es : List StatusEntry} {T : Object} (h : T.text = statusText es) :
    T.members.map (fun m => nameText m.name) = es.map StatusEntry.id := by
  have hbrace : step ⟨.value, [], []⟩ '{' = some ⟨.firstName, [.object], []⟩ := rfl
  have hrun := run_text T
  rw [h, statusText, run_cons hbrace] at hrun
  have hbodies := bodies_of_run (.inl rfl) (by rw [hrun]; exact Option.some_ne_none _)
  cases es with
  | nil =>
    have hempty : run ⟨.firstName, [.object], []⟩ ['}'] = some ⟨.after, [], []⟩ := rfl
    exact congrArg Machine.names (Option.some.inj (hrun.symm.trans hempty))
  | cons e es =>
    have hall : run ⟨.firstName, [.object], []⟩ (joined ((e :: es).map StatusEntry.text) ++ ['}']) =
        some ⟨.after, [], (e :: es).flatMap fun e => [e.id]⟩ :=
      run_joined (b := .object) (List.cons_ne_nil e es) (fun e he => notes_entry (hbodies e he)) [] (.inl rfl)
    have hnames := congrArg Machine.names (Option.some.inj (hrun.symm.trans hall))
    exact hnames.trans List.map_eq_flatMap.symm

end Reading

/-! ## When the answer is the object -/

section Answer

open Machine (nameText)

variable {rep : Replication}

theorem names_of_describes {ms : List (Member Value)} {ids : List Bytes} (h : List.Forall₂ Describes ms ids) :
    ms.map (fun m => m.name.bytes) = ids := by
  induction h with
  | nil => rfl
  | cons hm _ ih => rw [List.map_cons, hm.1, ih]

theorem plain_of_answersJson (hreg : Registered rep) (h : AnswersJson rep) :
    ∀ id ∈ rep.ids, PlainText id ∧ WellFormedUtf8 (cut (rep.client id).current) := by
  obtain ⟨T, htext, -, ids, hperm, hall⟩ := h
  have hparts := wellFormed_parts ⟨T.text, htext⟩
  obtain ⟨es, hids, hanswer⟩ := exists_entries hreg hparts
  have hnames := names_of_text (utf8Text_inj (htext.trans hanswer.symm))
  -- together the names denote as much as is written
  have hdenote := names_of_describes hall
  have hsum : (T.members.map fun m => (utf8Text (nameText m.name)).length).sum =
      (T.members.map fun m => m.name.bytes.length).sum := by
    calc (T.members.map fun m => (utf8Text (nameText m.name)).length).sum
        = ((T.members.map fun m => nameText m.name).map fun s => (utf8Text s).length).sum := by
          rw [List.map_map]
          rfl
      _ = (rep.ids.map List.length).sum := by
          rw [hnames, ← hids, List.map_map, List.map_map]
          rfl
      _ = (ids.map List.length).sum := (hperm.map List.length).sum_eq.symm
      _ = (T.members.map fun m => m.name.bytes.length).sum := by
          rw [← hdenote, List.map_map]
          rfl
  have hplain : ∀ m ∈ T.members, ∀ c ∈ nameText m.name, IsPlain c := by
    intro m hm
    by_contra hescaped
    have hlt : m.name.bytes.length < (utf8Text (nameText m.name)).length := by
      by_contra hle
      exact hescaped (m.name.length_bytes.2 (not_lt.1 hle))
    exact absurd hsum.symm (ne_of_lt (List.sum_lt_sum _ _ (fun m _ => m.name.length_bytes.1) ⟨m, hm, hlt⟩))
  intro id hid
  refine ⟨?_, (hparts id hid).2⟩
  rw [← hids] at hid
  obtain ⟨e, he, rfl⟩ := List.mem_map.1 hid
  have hname : e.id ∈ T.members.map fun m => nameText m.name := hnames ▸ List.mem_map_of_mem he
  obtain ⟨m, hm, heq⟩ := List.mem_map.1 hname
  exact ⟨e.id, rfl, heq ▸ hplain m hm⟩

/-- The field `id`. -/
def idField (s : Literal) : Member Value :=
  field (Literal.ofPlain ['i', 'd'] (forall_mem_of_all (by decide))) (.string s)

/-- The member that an entry with a plain id is. -/
theorem exists_member {e : StatusEntry} (h : ∀ c ∈ e.id, IsPlain c) :
    ∃ m : Member Value, m.text = e.text ∧ Describes m (utf8Text e.id) := by
  refine ⟨field (Literal.ofPlain e.id h) (.object [] (idField (Literal.ofPlain e.id h) :: e.fields)), ?_, ?_⟩
  · have hblanks : Blanks.text [] = [] := rfl
    have hid : (idField (Literal.ofPlain e.id h)).text = ['"', 'i', 'd', '"', ':', '"'] ++ (e.id ++ ['"']) := by
      simp only [idField, field, Member.text, Value.text, Literal.text, Literal.flatMap_ofPlain, hblanks,
        List.nil_append, List.append_nil, List.cons_append]
    have hjoined : joined (memberTexts (idField (Literal.ofPlain e.id h) :: e.fields)) =
        (idField (Literal.ofPlain e.id h)).text ++ ',' :: joined (e.fields.map Member.text) := by
      rw [memberTexts_eq]
      rfl
    rw [field, Member.text, Value.text, if_neg (by simp), hjoined, hid, StatusEntry.text, StatusEntry.opening]
    simp only [Literal.text, Literal.flatMap_ofPlain, hblanks, List.nil_append, List.append_nil,
      List.cons_append, List.append_assoc]
  · exact ⟨Literal.bytes_ofPlain h, [], _, rfl, _, List.mem_cons_self, Literal.bytes_ofPlain _, _, rfl,
      Literal.bytes_ofPlain h⟩

theorem exists_members {es : List StatusEntry} (h : ∀ e ∈ es, ∀ c ∈ e.id, IsPlain c) :
    ∃ ms : List (Member Value), ms.map Member.text = es.map StatusEntry.text ∧
      List.Forall₂ Describes ms (es.map fun e => utf8Text e.id) := by
  induction es with
  | nil => exact ⟨[], rfl, .nil⟩
  | cons e es ih =>
    obtain ⟨he, hes⟩ := List.forall_mem_cons.1 h
    obtain ⟨m, htext, hm⟩ := exists_member he
    obtain ⟨ms, htexts, hms⟩ := ih hes
    exact ⟨m :: ms, by rw [List.map_cons, List.map_cons, htext, htexts], .cons hm hms⟩

/-- No control characters. -/
def Visible (s : List Char) : Prop := ∀ c ∈ s, 0x20 ≤ c.val.toNat

theorem Visible.append {s t : List Char} (hs : Visible s) (ht : Visible t) : Visible (s ++ t) :=
  fun c hc => (List.mem_append.1 hc).elim (hs c) (ht c)

theorem Visible.cons {c : Char} {s : List Char} (hs : Visible s) (hc : 0x20 ≤ c.val.toNat) : Visible (c :: s) :=
  List.forall_mem_cons.2 ⟨hc, hs⟩

theorem visible_joined : ∀ {ts : List (List Char)}, (∀ t ∈ ts, Visible t) → Visible (joined ts)
  | [], _ => fun _ hc => nomatch hc
  | [t], h => h t List.mem_cons_self
  | t :: t' :: ts, h => by
    obtain ⟨ht, hts⟩ := List.forall_mem_cons.1 h
    exact ht.append ((visible_joined hts).cons (by decide))

theorem visible_literal (s : Literal) : Visible s.text := literal_text_ge s

theorem visible_number (n : JsonText.Number) : Visible n.text := by
  have hscalar : ∀ c ∈ Value.scalarChars, 0x20 ≤ c.val.toNat := forall_mem_of_all (by decide)
  obtain ⟨c, t, -, -, hall⟩ := n.text_eq_cons
  exact fun c hc => hscalar c (hall c hc)

theorem visible_field (name : Literal) {v : Value} (hv : Visible v.text) : Visible (field name v).text := by
  have htext : (field name v).text = name.text ++ ':' :: v.text := by
    simp only [field, Member.text, Blanks.text, List.map_nil, List.nil_append, List.append_nil]
  rw [htext]
  exact (visible_literal name).append (hv.cons (by decide))

theorem visible_fields (e : StatusEntry) : ∀ m ∈ e.fields, Visible m.text := by
  have hstring (s : Literal) : Visible (Value.string s).text := by
    rw [Value.text]
    exact visible_literal s
  have hnumber : Visible (Value.number e.queue).text := by
    rw [Value.text]
    exact visible_number e.queue
  simp only [StatusEntry.fields, List.forall_mem_cons]
  exact ⟨visible_field _ (hstring _), visible_field _ hnumber, visible_field _ (hstring _), by simp⟩

theorem visible_entry {e : StatusEntry} (h : Visible e.id) : Visible e.text := by
  have hopening : Visible StatusEntry.opening := forall_mem_of_all (by decide)
  have hclose : Visible ['}'] := forall_mem_of_all (by decide)
  have hfields : Visible (joined (e.fields.map Member.text)) :=
    visible_joined (List.forall_mem_map.2 (visible_fields e))
  have htail := ((hfields.append hclose).cons (c := ',') (by decide)).cons (c := '"') (by decide)
  exact (h.append (hopening.append (h.append htail))).cons (by decide)

theorem visible_statusText {es : List StatusEntry} (h : ∀ e ∈ es, Visible e.id) : Visible (statusText es) := by
  have hclose : Visible ['}'] := forall_mem_of_all (by decide)
  have hentries : Visible (joined (es.map StatusEntry.text)) :=
    visible_joined (List.forall_mem_map.2 fun e he => visible_entry (h e he))
  exact (hentries.append hclose).cons (by decide)

theorem answersJson_of_plain (hreg : Registered rep)
    (h : ∀ id ∈ rep.ids, PlainText id ∧ WellFormedUtf8 (cut (rep.client id).current)) : AnswersJson rep := by
  have hparts (id : Bytes) (hid : id ∈ rep.ids) :
      WellFormedUtf8 id ∧ WellFormedUtf8 (cut (rep.client id).current) := by
    obtain ⟨⟨s, hs, -⟩, hcur⟩ := h id hid
    exact ⟨⟨s, hs⟩, hcur⟩
  obtain ⟨es, hids, hanswer⟩ := exists_entries hreg hparts
  have hplain : ∀ e ∈ es, ∀ c ∈ e.id, IsPlain c := by
    intro e he
    have hid : utf8Text e.id ∈ rep.ids := hids ▸ List.mem_map_of_mem he
    obtain ⟨⟨s, hs, hplain⟩, -⟩ := h _ hid
    exact utf8Text_inj hs ▸ hplain
  obtain ⟨ms, htexts, hdescribe⟩ := exists_members hplain
  refine ⟨⟨[], [], ms, []⟩, ?_, ?_, rep.ids, .refl _, hids ▸ hdescribe⟩
  · have htext : (⟨[], [], ms, []⟩ : Object).text = statusText es := by
      have hjoined : (if ms.isEmpty then Blanks.text [] else joined (memberTexts ms)) =
          joined (es.map StatusEntry.text) := by
        rw [← htexts, memberTexts_eq]
        cases ms with
        | nil => rfl
        | cons m ms => rfl
      rw [Object.text, Value.text, hjoined]
      exact List.append_nil _
    rw [htext, hanswer]
  · intro hbreak
    have hmem : chCr ∈ utf8Text (statusText es) := hanswer ▸ hbreak.subset List.mem_cons_self
    exact utf8Text_ge (visible_statusText fun e he c hc => (hplain e he c hc).1) chCr hmem (by decide)

/-- **When the answer is JSON.** The answer is the object it is meant to be exactly when every id can stand
between quotes as it is and what is written of every current key is well-formed. -/
theorem answersJson_iff (hreg : Registered rep) :
    AnswersJson rep ↔
      ∀ id ∈ rep.ids, PlainText id ∧ WellFormedUtf8 (cut (rep.client id).current) :=
  ⟨plain_of_answersJson hreg, answersJson_of_plain hreg⟩

end Answer

/-- A running client with an entry in its queue. -/
def oneRunning : Replication :=
  (Replication.empty.insertNew (ascii "s1")).setClient (ascii "s1")
    ⟨ascii "s1", .running, [ascii "a\"b"], [("del", ascii "[\"k\"]")], 1⟩

theorem answersJson_oneRunning : Registered oneRunning ∧ AnswersJson oneRunning := by
  have hreg : Registered oneRunning := (registered_empty.insertNew (ascii "s1")).1.setClient rfl
  refine ⟨hreg, (answersJson_iff hreg).2 ?_⟩
  intro id hid
  obtain rfl : id = ascii "s1" := List.mem_singleton.1 hid
  exact ⟨⟨['s', '1'], rfl, forall_mem_of_all (by decide)⟩, ['a', '"', 'b'], rfl⟩

/-- A slave may call itself `a"b`, and then the answer is no JSON. -/
theorem not_answersJson :
    decodeObject repSetstateJson {} {}
        (ascii "\x7b\"id\":\"a\\\"b\",\"state\":\"continue\"\x7d") =
        .ok (⟨ascii "a\"b", ascii "continue"⟩, []) ∧
      ∃ rep conn, Replication.empty.addClient .empty (ascii "a\"b") "continue" .fresh = .ok (rep, conn) ∧
        Registered rep ∧ ¬AnswersJson rep := by
  obtain ⟨rep, conn, hadd, hids⟩ : ∃ rep conn,
      Replication.empty.addClient .empty (ascii "a\"b") "continue" .fresh = .ok (rep, conn) ∧
        rep.ids = [ascii "a\"b"] := ⟨_, _, rfl, rfl⟩
  have hreg := registered_empty.addClient hadd
  refine ⟨by decide +kernel, rep, conn, hadd, hreg, fun h => ?_⟩
  have hid : ascii "a\"b" ∈ rep.ids := hids ▸ List.mem_cons_self
  obtain ⟨⟨s, hs, hplain⟩, -⟩ := plain_of_answersJson hreg h (ascii "a\"b") hid
  obtain rfl : s = ['a', '"', 'b'] := utf8Text_inj hs
  exact absurd (hplain '"' (by decide)) (by decide)

end LeveldbDaemon
