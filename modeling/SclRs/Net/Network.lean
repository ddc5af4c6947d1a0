import SclRs.Net.Simulation.Event

/-!
# Party programs

A party's code suspends only in operations of its `Network`. `Prog ρ` is such code: the next
operation with, for each result it may have, the code that follows, down to the result `ρ`. The
operations are those of the trait `Network` that act on a backend; `local_party`, `party_ids` and
`other` only read what the backend was built with and are parameters of a program. `record` is the
trace marker of `record_protocol_begin`, `record_protocol_end` and of the simulator's driver.
-/

namespace SclRs

/-- A trace marker; it becomes an event at the recording party's clock. -/
inductive Marker
  | start
  | stop
  | output (output : List UInt8)
  | protocolBegin (protocolName : ProtocolId)
  | protocolEnd (protocolName : ProtocolId)

def Marker.event (t : Duration) : Marker → Event
  | start => .start t
  | stop => .stop t
  | output bytes => .output t bytes
  | protocolBegin name => .protocolBegin t name
  | protocolEnd name => .protocolEnd t name

@[simp] theorem Marker.timestamp_event (t : Duration) (m : Marker) : (m.event t).timestamp = t := by
  cases m <;> rfl

inductive NetOp
  | sendTo (partyId : PartyId) (packet : Packet)
  | recvFrom (partyId : PartyId)
  | recvAny
  | recvFromWithTimeout (partyId : PartyId) (timeout : Duration)
  | recvAnyWithTimeout (timeout : Duration)
  | record (marker : Marker)

/-- What an operation resolves to. -/
def NetOp.Out : NetOp → Type
  | sendTo .. => Except NetworkError Nat
  | recvFrom _ | recvFromWithTimeout .. => Except NetworkError Packet
  | recvAny | recvAnyWithTimeout _ => Except NetworkError (PartyId × Packet)
  | record _ => Unit

/-- The links whose packets the operation waits for, at party `me` among `parties`. -/
def NetOp.awaits (me : PartyId) (parties : List PartyId) : NetOp → List Link
  | recvFrom p | recvFromWithTimeout p _ => [⟨p, me⟩]
  | recvAny | recvAnyWithTimeout _ => parties.map fun p => ⟨p, me⟩
  | sendTo .. | record _ => []

def NetOp.timeout? : NetOp → Option Duration
  | recvFromWithTimeout _ d | recvAnyWithTimeout d => some d
  | _ => none

/-- The operation waits on every link into the party. -/
def NetOp.isAny : NetOp → Bool
  | recvAny | recvAnyWithTimeout _ => true
  | _ => false

/-- Code of a party with result `ρ`; `panic` is a Rust panic. -/
inductive Prog (ρ : Type)
  | ret (result : ρ)
  | panic
  | call (op : NetOp) (next : op.Out → Prog ρ)

namespace Prog

variable {α β ρ : Type}

def bind : Prog α → (α → Prog β) → Prog β
  | ret a, f => f a
  | panic, _ => panic
  | call op next, f => call op fun out => bind (next out) f

instance : Monad Prog where
  pure := ret
  bind := bind

@[simp] theorem pure_eq (a : α) : (pure a : Prog α) = ret a := rfl

@[simp] theorem ret_bind (a : α) (f : α → Prog β) : ret a >>= f = f a := rfl

@[simp] theorem call_bind (op : NetOp) (next : op.Out → Prog α) (f : α → Prog β) :
    call op next >>= f = call op fun out => next out >>= f := rfl

theorem bind_ret (p : Prog α) : p >>= ret = p := by
  induction p with
  | ret | panic => rfl
  | call op next ih => exact congrArg (call op) (funext ih)

theorem bind_assoc {γ : Type} (p : Prog α) (f : α → Prog β) (g : β → Prog γ) :
    p >>= f >>= g = p >>= fun a => f a >>= g := by
  induction p with
  | ret | panic => rfl
  | call op next ih => exact congrArg (call op) (funext ih)

instance : LawfulMonad Prog := LawfulMonad.mk' Prog bind_ret (fun _ _ => rfl) bind_assoc

def result? : Prog ρ → Option ρ
  | ret result => some result
  | _ => none

theorem result?_eq_some {prog : Prog ρ} {result : ρ} (h : prog.result? = some result) :
    prog = ret result := by
  cases prog with
  | ret => rw [Option.some.inj h]
  | panic | call => cases h

def op (o : NetOp) : Prog o.Out := call o ret

/-- `send_many`: the default implementation, one `send_to` after the other. -/
def sendMany : List (PartyId × Packet) → Prog (Except NetworkError Unit)
  | [] => ret (.ok ())
  | (partyId, packet) :: rest => call (.sendTo partyId packet) fun
    | .error e => ret (.error e)
    | .ok _ => sendMany rest

/-- `Protocol::execute`: the run between its begin and end markers. -/
def execute (id : ProtocolId) (run : Prog ρ) : Prog ρ := do
  op (.record (.protocolBegin id))
  let output ← run
  op (.record (.protocolEnd id))
  return output

theorem execute_bind (id : ProtocolId) (run : Prog ρ) (f : ρ → Prog α) :
    execute id run >>= f = call (.record (.protocolBegin id)) fun _ => run >>= fun output =>
      call (.record (.protocolEnd id)) fun _ => f output :=
  congrArg (call _) (funext fun _ => bind_assoc run _ f)

end Prog

end SclRs
