import SclRs.Net.Packet

/-!
# Virtual time, links and trace events

A `Duration` is its number of nanoseconds. Adding two of them panics in the source when the sum
exceeds `Duration.max`; `checkedAdd` answers `none` there.
-/

namespace SclRs

abbrev Duration := Nat

/-- `Duration::MAX`: `u64::MAX` seconds and 999 999 999 nanoseconds. -/
def Duration.max : Duration := (2 ^ 64 - 1) * 10 ^ 9 + 999999999

def Duration.checkedAdd (a b : Duration) : Option Duration :=
  if a + b ≤ Duration.max then some (a + b) else none

theorem Duration.checkedAdd_eq_some {a b c : Duration} :
    Duration.checkedAdd a b = some c ↔ c = a + b ∧ a + b ≤ Duration.max := by
  unfold Duration.checkedAdd
  split_ifs with h
  · simp only [Option.some.injEq, h, and_true]
    exact eq_comm
  · simp [h]

structure Link where
  sender : PartyId
  recipient : PartyId
deriving DecidableEq

/-- `ProtocolId(&'static str)`. -/
abbrev ProtocolId := String

inductive Event
  | start (timestamp : Duration)
  | stop (timestamp : Duration)
  | sendData (timestamp : Duration) (link : Link) (size : Nat) (contentCount : List (String × Nat))
  | receiveData (timestamp : Duration) (link : Link) (size : Nat)
      (contentCount : List (String × Nat))
  | output (timestamp : Duration) (output : List UInt8)
  | protocolBegin (timestamp : Duration) (protocolName : ProtocolId)
  | protocolEnd (timestamp : Duration) (protocolName : ProtocolId)
deriving DecidableEq

def Event.timestamp : Event → Duration
  | start t | stop t | sendData t _ _ _ | receiveData t _ _ _ | output t _ | protocolBegin t _
  | protocolEnd t _ => t

end SclRs
