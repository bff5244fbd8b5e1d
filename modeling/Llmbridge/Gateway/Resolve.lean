import Llmbridge.Transition.Runs

/-!
# Resolving venue names

`gateway/src/resolve.cpp`: the loop thread asks for lookups and applies their answers,
the resolver thread makes them.  Each critical section is one step.
-/

namespace Llmbridge
namespace Resolve

/-- `Upstream`: what resolving reads and writes of a venue. -/
structure Upstream where
  host : String := ""
  sniHost : String := ""
  ip : String := ""
  ips : List String := []
  port : Nat := 0
  tls : Bool := false
  hostHdr : String := ""
  deriving DecidableEq, Repr

/-- `host_header_for`. -/
def hostHeaderFor (u : Upstream) : String :=
  if u.sniHost.isEmpty then (if u.ip.isEmpty then u.host else u.ip) ++ ":" ++ toString u.port
  else if (u.tls ∧ u.port = 443) ∨ (¬ u.tls ∧ u.port = 80) then u.sniHost
  else u.sniHost ++ ":" ++ toString u.port

namespace Upstream

/-- `readdress`, with the memory it needs. -/
def readdress (up : Upstream) (ip : String) : Upstream :=
  let up := { up with ip := ip }
  if up.sniHost.isEmpty then { up with hostHdr := hostHeaderFor up } else up

@[simp]
theorem readdress_ip (up : Upstream) (ip : String) : (up.readdress ip).ip = ip := by
  unfold readdress
  dsimp only
  split <;> rfl

@[simp]
theorem readdress_ips (up : Upstream) (ip : String) : (up.readdress ip).ips = up.ips := by
  unfold readdress
  dsimp only
  split <;> rfl

/-- The rotation of `note_connect_failure`: the address behind the one in use. -/
def rotate (up : Upstream) : Upstream :=
  if 1 < up.ips.length then
    let found := up.ips.idxOf up.ip
    let i := if found = up.ips.length then 0 else found
    up.readdress (up.ips.getD ((i + 1) % up.ips.length) "")
  else up

/-- The answer of `apply_reresolved`: the fresh list, and the address in use when it is
still in it, else its first. -/
def answer (up : Upstream) (ips : List String) : Upstream :=
  let up := { up with ips := ips }
  if up.ip ∈ up.ips then up else up.readdress (up.ips.headD "")

end Upstream

/-- `kReresolveMinNs`. -/
def kReresolveMinNs : Int := 1000000000

/-- `kReresolveMaxNs`. -/
def kReresolveMaxNs : Int := 30000000000

/-- The wait `back_off` leaves. -/
def backOff (backoffNs : Int) : Int :=
  if backoffNs = 0 then kReresolveMinNs else min (2 * backoffNs) kReresolveMaxNs

/-- An entry of `pending`.  `ask` numbers the lookups asked for; the code has no such
number. -/
structure Job (n : Nat) where
  slot : Fin n
  host : String
  ask : Nat
  deriving DecidableEq, Repr

/-- `Done`, with the number of its lookup. -/
structure Done (n : Nat) where
  slot : Fin n
  ips : List String
  err : String
  ask : Nat
  deriving DecidableEq, Repr

/-- A vector and its capacity. -/
structure Vec (α : Type) where
  items : List α := []
  capacity : Nat

namespace Vec

/-- `push_back`: past the capacity it allocates. -/
def push {α : Type} (v : Vec α) (x : α) : Vec α where
  items := v.items ++ [x]
  capacity := max v.capacity (v.items.length + 1)

/-- `clear` keeps the capacity. -/
def clear {α : Type} (v : Vec α) : Vec α :=
  { v with items := [] }

end Vec

/-- Where the loop thread stands between its steps. -/
inductive LoopAt (n : Nat)
  /-- Outside both functions. -/
  | idle
  /-- `request_reresolve` has queued the slot, and sets its flag next. -/
  | queued (slot : Fin n)
  /-- `apply_reresolved` has seen `ready`, and takes the lock next. -/
  | ready
  /-- `apply_reresolved` stands before the batch's entry `k`. -/
  | applying (now : Int) (k : Nat)
  deriving DecidableEq, Repr

/-- Both threads and what they share. -/
structure Engine (n : Nat) where
  upstreams : Fin n → Upstream
  inflight : Fin n → Bool := fun _ => false
  nextNs : Fin n → Int := fun _ => 0
  backoffNs : Fin n → Int := fun _ => 0
  upstreamReresolved : Nat := 0
  batch : Vec (Done n) := { capacity := n }
  loop : LoopAt n := .idle
  /-- Whether the resolver thread was started. -/
  thread : Bool := false
  pending : List (Job n) := []
  done : Vec (Done n) := { capacity := n }
  busy : Bool := false
  ready : Bool := false
  /-- The job the resolver thread looks up. -/
  running : Option (Job n) := none
  /-- Lookups asked for so far. -/
  asks : Nat := 0
  /-- Lookups finished, and answers applied, so far. -/
  finished : List (Done n) := []
  applied : List (Done n) := []

namespace Engine

variable {n : Nat}

/-- `request_reresolve` up to the end of its critical section. -/
def requestReresolve (s : Engine n) (slot : Int) (now : Int) : Engine n :=
  if inRange : 0 ≤ slot ∧ slot.toNat < n then
    let i : Fin n := ⟨slot.toNat, inRange.2⟩
    if s.inflight i ∨ (s.upstreams i).host.isEmpty then s
    else if now < s.nextNs i then s
    else
      { s with
        thread := true
        pending := s.pending ++ [⟨i, (s.upstreams i).host, s.asks⟩]
        asks := s.asks + 1
        loop := .queued i }
  else s

/-- `request_reresolve` without a thread or memory. -/
def requestUnqueued (s : Engine n) (i : Fin n) (now : Int) : Engine n :=
  { s with
    backoffNs := Function.update s.backoffNs i (backOff (s.backoffNs i))
    nextNs := Function.update s.nextNs i (now + backOff (s.backoffNs i)) }

/-- `request_reresolve` behind its critical section. -/
def markInflight (s : Engine n) (i : Fin n) : Engine n :=
  { s with inflight := Function.update s.inflight i true, loop := .idle }

/-- `note_connect_failure`. -/
def noteConnectFailure (s : Engine n) (slot : Int) (now : Int) : Engine n :=
  if inRange : 0 ≤ slot ∧ slot.toNat < n then
    let i : Fin n := ⟨slot.toNat, inRange.2⟩
    let s := { s with upstreams := Function.update s.upstreams i (s.upstreams i).rotate }
    s.requestReresolve slot now
  else s

/-- `apply_reresolved` up to its lock. -/
def checkReady (s : Engine n) : Engine n :=
  if s.ready then { s with loop := .ready } else s

/-- The critical section of `apply_reresolved`. -/
def swapDone (s : Engine n) (now : Int) : Engine n :=
  { s with batch := s.done, done := s.batch, ready := false, loop := .applying now 0 }

/-- The body of `apply_reresolved`'s loop, at its entry `k`. -/
def applyDone (s : Engine n) (now : Int) (k : Nat) (d : Done n) : Engine n :=
  let i := d.slot
  let s :=
    { s with
      inflight := Function.update s.inflight i false
      loop := .applying now (k + 1)
      applied := s.applied ++ [d] }
  if d.ips = [] then
    { s with
      backoffNs := Function.update s.backoffNs i (backOff (s.backoffNs i))
      nextNs := Function.update s.nextNs i (now + backOff (s.backoffNs i)) }
  else
    { s with
      backoffNs := Function.update s.backoffNs i 0
      nextNs := Function.update s.nextNs i (now + kReresolveMinNs)
      upstreams := Function.update s.upstreams i ((s.upstreams i).answer d.ips)
      upstreamReresolved := s.upstreamReresolved + 1 }

/-- The end of `apply_reresolved`. -/
def clearBatch (s : Engine n) : Engine n :=
  { s with batch := s.batch.clear, loop := .idle }

/-- The first critical section of `reresolve_loop`, with `job` at the front. -/
def takeJob (s : Engine n) (job : Job n) (rest : List (Job n)) : Engine n :=
  { s with pending := rest, running := some job, busy := true }

/-- The second one, with the lookup's answer. -/
def finishJob (s : Engine n) (job : Job n) (ips : List String) (err : String) : Engine n :=
  let d : Done n := ⟨job.slot, ips, err, job.ask⟩
  { s with
    running := none
    busy := false
    done := s.done.push d
    ready := true
    finished := s.finished ++ [d] }

/-- One step of either thread.  The clock and the answers are arbitrary. -/
inductive Step : Engine n → Engine n → Prop
  | request {s : Engine n} (slot now : Int) (idle : s.loop = .idle) :
      Step s (s.requestReresolve slot now)
  | unqueued {s : Engine n} (i : Fin n) (now : Int) (idle : s.loop = .idle) :
      Step s (s.requestUnqueued i now)
  | mark {s : Engine n} (i : Fin n) (queued : s.loop = .queued i) : Step s (s.markInflight i)
  | connectFailed {s : Engine n} (slot now : Int) (idle : s.loop = .idle) :
      Step s (s.noteConnectFailure slot now)
  | check {s : Engine n} (idle : s.loop = .idle) : Step s s.checkReady
  | swap {s : Engine n} (now : Int) (ready : s.loop = .ready) : Step s (s.swapDone now)
  | apply {s : Engine n} (now : Int) (k : Nat) (d : Done n) (applying : s.loop = .applying now k)
      (entry : s.batch.items[k]? = some d) : Step s (s.applyDone now k d)
  | clear {s : Engine n} (now : Int) (k : Nat) (applying : s.loop = .applying now k)
      (ends : s.batch.items.length ≤ k) : Step s s.clearBatch
  | take {s : Engine n} (job : Job n) (rest : List (Job n)) (started : s.thread = true)
      (free : s.running = none) (waits : s.pending = job :: rest) : Step s (s.takeJob job rest)
  | finish {s : Engine n} (job : Job n) (ips : List String) (err : String)
      (runs : s.running = some job) : Step s (s.finishJob job ips err)

/-- A new engine: nothing is asked for yet. -/
def Starts (s : Engine n) : Prop :=
  ∃ upstreams, s = { upstreams := upstreams }

end Engine

end Resolve
end Llmbridge
