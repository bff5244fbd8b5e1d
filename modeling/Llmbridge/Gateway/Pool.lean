import Llmbridge.Gateway.Connections
import Llmbridge.Intrusive.DoublyLinked

/-!
# The keep-alive pool

`gateway/src/core/pool.hpp`, `gateway/src/core/pool.cpp`: one intrusive list of idle
connections for each venue, capped in total.  `pool_newer` and `pool_older` of every
connection are kept as one set of links beside the connections, and the callback of `reap`
is the close that `sweep.cpp` hands it.
-/

namespace Llmbridge
namespace Gateway

/-- `UpstreamPool`. -/
structure UpstreamPool where
  lists : List (Intrusive.Ends Nat) := []
  cap : Nat := 0
  count : Nat := 0
  deriving DecidableEq, Repr

/-- `UpstreamPool::Refusal`. -/
inductive PoolRefusal
  | none
  | closed
  | notKeepAlive
  | bodyOpen
  | peerClosed
  | leftover
  | unsent
  | full
  deriving DecidableEq, Repr

/-- The pool, the connections with the links of its lists, and each client's `up`. -/
structure PoolHeap where
  pool : UpstreamPool := {}
  links : Intrusive.Links Nat := { newer := fun _ => none, older := fun _ => none }
  conn : Nat → UpstreamConn := fun _ => {}
  up : Nat → Option Nat := fun _ => none

namespace PoolHeap

/-- Write a connection. -/
def setConn (h : PoolHeap) (u : Nat) (c : UpstreamConn) : PoolHeap :=
  { h with conn := fun w => if w = u then c else h.conn w }

@[simp] theorem setConn_pool (h : PoolHeap) (u : Nat) (c : UpstreamConn) :
    (h.setConn u c).pool = h.pool := rfl

@[simp] theorem setConn_links (h : PoolHeap) (u : Nat) (c : UpstreamConn) :
    (h.setConn u c).links = h.links := rfl

@[simp] theorem setConn_conn (h : PoolHeap) (u : Nat) (c : UpstreamConn) (w : Nat) :
    (h.setConn u c).conn w = if w = u then c else h.conn w := rfl

/-- `unpair` of a venue's connection. -/
def unpair (h : PoolHeap) (u : Nat) : PoolHeap :=
  let c := h.conn u
  { h with up := fun client => if c.links.client = some client then none else h.up client }.setConn
    u { c with links := { c.links with client := none } }

/-- `init`. -/
def init (h : PoolHeap) (venues cap : Nat) : PoolHeap :=
  { h with pool := { h.pool with lists := List.replicate venues {}, cap := cap } }

/-- The list of a venue. -/
def listOf (h : PoolHeap) (venue : Int) : Intrusive.Ends Nat :=
  h.pool.lists.getD venue.toNat {}

/-- `remove`. -/
def remove (h : PoolHeap) (u : Nat) : PoolHeap :=
  let c := h.conn u
  if c.links.pooled then
    let out := Intrusive.unlink h.links (h.listOf c.links.venue) u
    { h with
      pool :=
        { h.pool with
          lists := h.pool.lists.set c.links.venue.toNat out.2
          count := h.pool.count - 1 }
      links := out.1 }.setConn u { c with links := { c.links with pooled := false } }
  else h

/-- `acquire`. -/
def acquire (h : PoolHeap) (venue : Int) : Option Nat × PoolHeap :=
  if venue < 0 ∨ h.pool.lists.length ≤ venue.toNat then (none, h)
  else
    match (h.listOf venue).newest with
    | some u => (some u, h.remove u)
    | none => (none, h)

/-- The last part of `release`: `u` is scrubbed, stamped and linked in as the newest. -/
def pooled (h : PoolHeap) (u : Nat) (now : Int) : PoolHeap :=
  let c := h.conn u
  let linked := Intrusive.push h.links (h.listOf c.links.venue) u
  { h with
    pool :=
      { h.pool with
        lists := h.pool.lists.set c.links.venue.toNat linked.2
        count := h.pool.count + 1 }
    links := linked.1 }.setConn u
      { c with
        framer := {}
        out := c.out.clear
        tsPooled := now
        links := { c.links with pooled := true } }

/-- `release`. -/
def release (h : PoolHeap) (u : Nat) (keepAlive bodyEnded requestSent : Bool) (now : Int) :
    PoolRefusal × PoolHeap :=
  let h := h.unpair u
  let c := h.conn u
  if c.links.doomed ∨ c.fdOpen = false ∨ c.links.pooled then (.closed, h)
  else if keepAlive = false then (.notKeepAlive, h)
  else if bodyEnded = false then (.bodyOpen, h)
  else if c.peerEof then (.peerClosed, h)
  else if c.rbuf ≠ [] then (.leftover, h)
  else if requestSent = false then (.unsent, h)
  else if h.pool.cap ≤ h.pool.count then (.full, h)
  else if c.links.venue < 0 ∨ h.pool.lists.length ≤ c.links.venue.toNat then (.closed, h)
  else (.none, h.pooled u now)

/-- The close of a venue's connection, `Engine::forget` with the descriptor's: it is out of
the pool, has no client and is doomed. -/
def close (h : PoolHeap) (u : Nat) : PoolHeap :=
  if (h.conn u).links.doomed then h
  else
    let h := (h.unpair u).remove u
    let c := h.conn u
    h.setConn u { c with links := { c.links with doomed := true }, fdOpen := false }

/-- The rounds of `reap` at one venue's list, each closing its oldest: the connections
closed, in order, and what is left. -/
def reapList (cutoff : Int) (venue : Nat) : (rounds : Nat) → PoolHeap → List Nat × PoolHeap
  | 0, h => ([], h)
  | rounds + 1, h =>
      match (h.listOf venue).oldest with
      | none => ([], h)
      | some u =>
          if (h.conn u).tsPooled < cutoff then
            let rest := reapList cutoff venue rounds ((h.remove u).close u)
            (u :: rest.1, rest.2)
          else ([], h)

/-- `reap` over some of the lists. -/
def reapLists (cutoff : Int) : List Nat → PoolHeap → List Nat × PoolHeap
  | [], h => ([], h)
  | venue :: venues, h =>
      let first := reapList cutoff venue h.pool.count h
      let rest := reapLists cutoff venues first.2
      (first.1 ++ rest.1, rest.2)

/-- `reap`: the connections closed, in order, and what is left.  A list is no longer than
the count, so its rounds suffice. -/
def reap (h : PoolHeap) (cutoff : Int) : List Nat × PoolHeap :=
  reapLists cutoff (List.range h.pool.lists.length) h

end PoolHeap
end Gateway
end Llmbridge
