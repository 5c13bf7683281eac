import LeveldbDaemon.Bytes
import Mathlib.Data.Finset.Basic
import Mathlib.Logic.Function.Basic

/-!
# The multiplexer

`epoller` (`fas/mux/epoller.hpp`) and the part of the kernel it talks to. The class keeps for each
descriptor the flags it asked for, the observer of its events and whether the descriptor is in the
kernel's interest list; `epoll_ctl` adds, changes and deletes entries of that list, and closing a
descriptor takes it off. `epoll_ctl` fails on an entry that is there or is missing, and so does
`_reset_handler` on a descriptor that is not ready.

As long as every call finds what it expects, the table and the list agree (`Mux.Agrees`), and the two
operations are what they look like (`setHandler_eq`, `resetHandler_eq`).
-/

namespace LeveldbDaemon

/-! ## The kernel -/

/-- `EPOLLIN`, `EPOLLOUT` and `EPOLLPRI`. -/
inductive Flag where
  | input
  | output
  | urgent
  deriving DecidableEq

inductive Errno where
  | badDescriptor
  | exists
  | noEntry
  deriving DecidableEq

/-- `EPOLL_CTL_ADD`, `EPOLL_CTL_MOD` and `EPOLL_CTL_DEL`. -/
inductive CtlMode where
  | add
  | mod
  | del

/-- The descriptors of the process and one epoll instance. -/
structure Kernel where
  /-- The socket behind an open descriptor. A socket is new with each connection; descriptors are
  used again. -/
  socket : Nat → Option Nat
  interest : Nat → Option (Finset Flag)
  /-- The bytes a socket has taken. -/
  stream : Nat → Bytes
  nextSocket : Nat

namespace Kernel

/-- `epoll_ctl`. -/
def epollCtl (k : Kernel) (mode : CtlMode) (d : Nat) (events : Finset Flag) : Except Errno Kernel :=
  if k.socket d = none then .error .badDescriptor
  else
    match mode, k.interest d with
    | .add, none => .ok { k with interest := Function.update k.interest d (some events) }
    | .add, some _ => .error .exists
    | .mod, some _ => .ok { k with interest := Function.update k.interest d (some events) }
    | .del, some _ => .ok { k with interest := Function.update k.interest d none }
    | .mod, none => .error .noEntry
    | .del, none => .error .noEntry

/-- A descriptor for a new connection. -/
def opened (k : Kernel) (d : Nat) : Kernel :=
  { k with socket := Function.update k.socket d (some k.nextSocket), nextSocket := k.nextSocket + 1 }

/-- `close`. The last descriptor of a socket takes it off the interest list. -/
def close (k : Kernel) (d : Nat) : Kernel :=
  { k with
    socket := Function.update k.socket d none
    interest := Function.update k.interest d none }

/-- The socket behind a descriptor has taken some bytes. -/
def sent (k : Kernel) (d : Nat) (b : Bytes) : Kernel :=
  match k.socket d with
  | some n => { k with stream := Function.update k.stream n (k.stream n ++ b) }
  | none => k

/-- A connection that is closed as soon as it is opened. -/
theorem close_opened {k : Kernel} {d : Nat} (hd : k.socket d = none) (hint : k.interest d = none) :
    (k.opened d).close d = { k with nextSocket := k.nextSocket + 1 } := by
  have hsocket : Function.update k.socket d none = k.socket := by rw [← hd, Function.update_eq_self]
  have hinterest : Function.update k.interest d none = k.interest := by
    rw [← hint, Function.update_eq_self]
  simp [close, opened, hsocket, hinterest]

section Sent

variable (k : Kernel) (d : Nat) (b : Bytes)

@[simp] theorem sent_socket : (k.sent d b).socket = k.socket := by
  unfold sent
  split <;> rfl

@[simp] theorem sent_interest : (k.sent d b).interest = k.interest := by
  unfold sent
  split <;> rfl

@[simp] theorem sent_nextSocket : (k.sent d b).nextSocket = k.nextSocket := by
  unfold sent
  split <;> rfl

variable {k d b}

theorem sent_stream_self {n : Nat} (h : k.socket d = some n) :
    (k.sent d b).stream n = k.stream n ++ b := by
  simp [sent, h]

theorem sent_stream_of_ne {n : Nat} (h : k.socket d ≠ some n) :
    (k.sent d b).stream n = k.stream n := by
  unfold sent
  split
  · rename_i n' hn'
    have hne : n ≠ n' := by
      rintro rfl
      exact h hn'
    simp [hne]
  · rfl

end Sent

end Kernel

/-! ## The epoller -/

/-- An `imux_observer`: the server, or a connection object. -/
inductive Observer where
  | server
  | connection (i : Nat)
  deriving DecidableEq

/-- `EventHandler`. -/
structure EventHandler where
  events : Finset Flag
  observer : Option Observer
  ready : Bool
  deriving DecidableEq

/-- What `_handlers.resize` fills in. -/
def EventHandler.zero : EventHandler := ⟨∅, none, false⟩

/-- What an exception says, without the text of `strerror`. -/
structure MuxError where
  what : String
  errno : Option Errno
  deriving DecidableEq

/-- `epoller` and its kernel. -/
structure Mux where
  handlers : Nat → EventHandler
  /-- `_handlers.size()`. -/
  size : Nat
  kernel : Kernel

namespace Mux

/-- What `_set_handler` throws when `EPOLL_CTL_MOD` fails; `e` are the flags set before. -/
def setError (e : Finset Flag) (errno : Errno) : MuxError :=
  if .input ∈ e then ⟨"epoller::_set_handle, error flag EPOLLIN, ", some errno⟩
  else if .output ∈ e then ⟨"epoller::_set_handle, error flag EPOLLOUT, ", some errno⟩
  else if .urgent ∈ e then ⟨"epoller::_set_handle, error flag EPOLLPRI, ", some errno⟩
  else ⟨"epoller::_set_handle: ", some errno⟩

/-- `_set_handler`, with the observer it returns. -/
def setHandler (m : Mux) (d : Nat) (sh : Observer) (flag : Flag) :
    Except MuxError (Option Observer × Mux) :=
  let size := max m.size (d + 1)
  let h := m.handlers d
  if h.ready = false then
    let h := ⟨{flag}, some sh, true⟩
    match m.kernel.epollCtl .add d h.events with
    | .error e => .error ⟨"epoller::_set_handle1: ", some e⟩
    | .ok kernel => .ok (none, ⟨Function.update m.handlers d h, size, kernel⟩)
  else
    let mode := if h.events ≠ ∅ then CtlMode.mod else CtlMode.add
    let events := insert flag h.events
    match m.kernel.epollCtl mode d events with
    | .error e => .error (setError (events.erase flag) e)
    | .ok kernel =>
      .ok (h.observer, ⟨Function.update m.handlers d ⟨events, some sh, true⟩, size, kernel⟩)

/-- `_reset_handler`, with the observer it returns. -/
def resetHandler (m : Mux) (d : Nat) (flag : Flag) : Except MuxError (Option Observer × Mux) :=
  let h := m.handlers d
  if m.size ≤ d ∨ h.ready = false then .error ⟨"epoller::_reset_handle: descriptor not found", none⟩
  else if h.events ≠ ∅ then
    let events := h.events.erase flag
    let mode := if events = ∅ then CtlMode.del else CtlMode.mod
    match m.kernel.epollCtl mode d events with
    | .error e => .error ⟨"epoller::_reset_handle: ", some e⟩
    | .ok kernel =>
      .ok (h.observer, { m with
        handlers := Function.update m.handlers d
          { h with events := events, ready := if events = ∅ then false else h.ready }
        kernel := kernel })
  else .ok (none, m)

/-- `flags_set` of `select`. -/
def flagsSet (m : Mux) (d : Nat) : Finset Flag := if d < m.size then (m.handlers d).events else ∅

/-! ## Agreement of the table with the kernel -/

/-- The entry of a descriptor is what the kernel was told. -/
structure AgreesAt (m : Mux) (d : Nat) : Prop where
  ready : (m.handlers d).ready = true ↔ (m.handlers d).events ≠ ∅
  interest : m.kernel.interest d =
    if (m.handlers d).events = ∅ then none else some (m.handlers d).events
  isOpen : (m.handlers d).events ≠ ∅ → m.kernel.socket d ≠ none
  watched : (m.handlers d).events ≠ ∅ → (m.handlers d).observer ≠ none
  small : (m.handlers d).events ≠ ∅ → d < m.size

/-- The table and the kernel agree. -/
def Agrees (m : Mux) : Prop := ∀ d, m.AgreesAt d

/-- The entry of a descriptor is replaced in the table and in the kernel. -/
def entry (m : Mux) (d : Nat) (events : Finset Flag) (sh : Option Observer) : Mux where
  handlers := Function.update m.handlers d ⟨events, sh, events ≠ ∅⟩
  size := max m.size (d + 1)
  kernel := { m.kernel with
    interest := Function.update m.kernel.interest d (if events = ∅ then none else some events) }

section Entry

variable (m : Mux) (d : Nat) (events : Finset Flag) (sh : Option Observer)

@[simp] theorem entry_handlers_self : (m.entry d events sh).handlers d = ⟨events, sh, events ≠ ∅⟩ := by
  simp [entry]

theorem entry_handlers_of_ne {d' : Nat} (h : d' ≠ d) :
    (m.entry d events sh).handlers d' = m.handlers d' := by
  simp [entry, h]

@[simp] theorem entry_socket : (m.entry d events sh).kernel.socket = m.kernel.socket := rfl

@[simp] theorem entry_stream : (m.entry d events sh).kernel.stream = m.kernel.stream := rfl

@[simp] theorem entry_nextSocket : (m.entry d events sh).kernel.nextSocket = m.kernel.nextSocket := rfl

end Entry

variable {m : Mux} {d : Nat} {events : Finset Flag} {sh : Option Observer}

theorem Agrees.entry (h : m.Agrees) (hopen : events ≠ ∅ → m.kernel.socket d ≠ none)
    (hsh : events ≠ ∅ → sh ≠ none) : (m.entry d events sh).Agrees := by
  intro d'
  by_cases hd : d' = d
  · subst hd
    constructor
    · simp
    · simp [Mux.entry]
    · simpa using hopen
    · simpa using hsh
    · intro _
      simp only [Mux.entry]
      omega
  · have hhandlers := m.entry_handlers_of_ne d events sh hd
    have hinterest : (m.entry d events sh).kernel.interest d' = m.kernel.interest d' := by
      simp [Mux.entry, hd]
    have hd' := h d'
    constructor
    · rw [hhandlers]
      exact hd'.ready
    · rw [hhandlers, hinterest]
      exact hd'.interest
    · rw [hhandlers]
      exact hd'.isOpen
    · rw [hhandlers]
      exact hd'.watched
    · intro he
      rw [hhandlers] at he
      have hsmall := hd'.small he
      simp only [Mux.entry]
      omega

/-- **Setting a handler** of an open descriptor adds the flag, and the events go to the given observer
from then on. -/
theorem setHandler_eq (h : m.Agrees) (hopen : m.kernel.socket d ≠ none) (o : Observer) (flag : Flag) :
    ∃ old, m.setHandler d o flag = .ok (old, m.entry d (insert flag (m.handlers d).events) (some o)) := by
  have hne : insert flag (m.handlers d).events ≠ ∅ := Finset.insert_ne_empty _ _
  have hint := (h d).interest
  by_cases hready : (m.handlers d).events = ∅
  · have hr : (m.handlers d).ready = false := by
      rw [← Bool.not_eq_true, (h d).ready]
      simpa using hready
    rw [if_pos hready] at hint
    refine ⟨none, ?_⟩
    simp [setHandler, hr, Kernel.epollCtl, hopen, hint, hready, Mux.entry]
  · have hr : (m.handlers d).ready = true := (h d).ready.2 hready
    rw [if_neg hready] at hint
    refine ⟨(m.handlers d).observer, ?_⟩
    simp [setHandler, hr, Kernel.epollCtl, hopen, hint, hready, Mux.entry]

/-- **Resetting a handler** of a descriptor that is ready takes the flag away. -/
theorem resetHandler_eq (h : m.Agrees) (hready : (m.handlers d).events ≠ ∅) (flag : Flag) :
    ∃ old, m.resetHandler d flag =
      .ok (old, m.entry d ((m.handlers d).events.erase flag) (m.handlers d).observer) := by
  have hr : (m.handlers d).ready = true := (h d).ready.2 hready
  have hsize := (h d).small hready
  have hint := (h d).interest
  have hopen := (h d).isOpen hready
  rw [if_neg hready] at hint
  have hle : ¬m.size ≤ d := by omega
  have hmax : max m.size (d + 1) = m.size := by omega
  refine ⟨(m.handlers d).observer, ?_⟩
  by_cases he : (m.handlers d).events.erase flag = ∅
  · simp [resetHandler, hr, hle, hready, Kernel.epollCtl, hopen, hint, he, Mux.entry, hmax]
  · simp [resetHandler, hr, hle, hready, Kernel.epollCtl, hopen, hint, he, Mux.entry, hmax]

/-! ## What an operation leaves alone -/

/-- At most the entry of one descriptor differs. -/
structure Only (m m' : Mux) (d : Nat) : Prop where
  agrees : m'.Agrees
  handlers : ∀ d' ≠ d, m'.handlers d' = m.handlers d'
  socket : m'.kernel.socket = m.kernel.socket
  stream : m'.kernel.stream = m.kernel.stream
  nextSocket : m'.kernel.nextSocket = m.kernel.nextSocket

theorem Only.refl (h : m.Agrees) (d : Nat) : m.Only m d := ⟨h, fun _ _ => rfl, rfl, rfl, rfl⟩

theorem Only.trans {m' m'' : Mux} (h : m.Only m' d) (h' : m'.Only m'' d) : m.Only m'' d where
  agrees := h'.agrees
  handlers d' hd := (h'.handlers d' hd).trans (h.handlers d' hd)
  socket := h'.socket.trans h.socket
  stream := h'.stream.trans h.stream
  nextSocket := h'.nextSocket.trans h.nextSocket

theorem Agrees.only_entry (h : m.Agrees) (hopen : events ≠ ∅ → m.kernel.socket d ≠ none)
    (hsh : events ≠ ∅ → sh ≠ none) : m.Only (m.entry d events sh) d where
  agrees := h.entry hopen hsh
  handlers _ hd := m.entry_handlers_of_ne d events sh hd
  socket := rfl
  stream := rfl
  nextSocket := rfl

theorem setHandler_spec (h : m.Agrees) (hopen : m.kernel.socket d ≠ none) (o : Observer) (flag : Flag) :
    ∃ old m', m.setHandler d o flag = .ok (old, m') ∧ m.Only m' d ∧
      (m'.handlers d).events = insert flag (m.handlers d).events ∧
      (m'.handlers d).observer = some o := by
  obtain ⟨old, hset⟩ := setHandler_eq h hopen o flag
  refine ⟨old, _, hset, h.only_entry (fun _ => hopen) (fun _ => Option.some_ne_none o), ?_, ?_⟩
  · simp
  · simp

theorem resetHandler_spec (h : m.Agrees) (hready : (m.handlers d).events ≠ ∅) (flag : Flag) :
    ∃ old m', m.resetHandler d flag = .ok (old, m') ∧ m.Only m' d ∧
      (m'.handlers d).events = (m.handlers d).events.erase flag ∧
      (m'.handlers d).observer = (m.handlers d).observer := by
  obtain ⟨old, hreset⟩ := resetHandler_eq h hready flag
  refine ⟨old, _, hreset, h.only_entry (fun _ => (h d).isOpen hready) (fun _ => (h d).watched hready),
    ?_, ?_⟩
  · simp
  · simp

/-- A descriptor with nothing set can be closed. -/
theorem Agrees.close (h : m.Agrees) (hd : (m.handlers d).events = ∅) :
    Agrees { m with kernel := m.kernel.close d } := by
  intro d'
  have hd' := h d'
  by_cases heq : d' = d
  · subst heq
    constructor
    · exact hd'.ready
    · simp [Kernel.close, hd]
    · exact fun he => absurd hd he
    · exact hd'.watched
    · exact hd'.small
  · constructor
    · exact hd'.ready
    · simpa [Kernel.close, heq] using hd'.interest
    · simpa [Kernel.close, heq] using hd'.isOpen
    · exact hd'.watched
    · exact hd'.small

theorem Agrees.opened (h : m.Agrees) (d : Nat) : Agrees { m with kernel := m.kernel.opened d } := by
  intro d'
  have hd' := h d'
  constructor
  · exact hd'.ready
  · exact hd'.interest
  · intro he
    by_cases heq : d' = d
    · simp [Kernel.opened, heq]
    · simpa [Kernel.opened, heq] using hd'.isOpen he
  · exact hd'.watched
  · exact hd'.small

theorem Agrees.sent (h : m.Agrees) (d : Nat) (b : Bytes) :
    Agrees { m with kernel := m.kernel.sent d b } := by
  intro d'
  have hd' := h d'
  constructor
  · exact hd'.ready
  · rw [Kernel.sent_interest]
    exact hd'.interest
  · rw [Kernel.sent_socket]
    exact hd'.isOpen
  · exact hd'.watched
  · exact hd'.small

end Mux

end LeveldbDaemon
