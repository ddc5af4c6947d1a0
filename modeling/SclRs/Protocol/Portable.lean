import SclRs.Net.Portable
import SclRs.Protocol.Sequence

/-!
# Protocols that run on sockets

`Prog.Portable` for code that may fail: it is kept by sequences, loops and the markers of a protocol, and
received packets may be used in any way that does not look at labels.
-/

namespace SclRs.Proto

variable {V α β : Type} {parties : List PartyId}

/-- The code runs on sockets between `parties`. -/
def Portable (parties : List PartyId) (x : Proto V α) : Prop := x.run.Portable parties

theorem portable_pure (a : α) : (pure a : Proto V α).Portable parties := .ret _

theorem Portable.bind {x : Proto V α} {f : α → Proto V β} (hx : x.Portable parties)
    (hf : ∀ a, (f a).Portable parties) : (x >>= f).Portable parties := by
  apply Prog.Alike.bind hx
  intro r
  cases r with
  | ok a => exact hf a
  | error e => exact .ret _

theorem portable_ofOption (o : Option α) : (ofOption o : Proto V α).Portable parties := by
  cases o with
  | none => exact .panic
  | some a => exact .ret _

theorem portable_ofNetwork (r : Except NetworkError α) : (ofNetwork r : Proto V α).Portable parties := by
  cases r <;> exact .ret _

theorem portable_network {p : Prog (Except NetworkError α)} (hp : p.Portable parties) :
    (network p : Proto V α).Portable parties :=
  Portable.bind (x := ExceptT.lift p) (Prog.Alike.bind hp fun _ => .ret _) portable_ofNetwork

theorem portable_sendMany {messages : List (PartyId × Packet)} (h : ∀ message ∈ messages, message.1 ∈ parties) :
    (network (Prog.sendMany messages) : Proto V Unit).Portable parties := by
  refine portable_network ?_
  induction messages with
  | nil => exact .ret _
  | cons message messages ih =>
    obtain ⟨hmessage, h⟩ := List.forall_mem_cons.mp h
    exact .sendTo hmessage (.refl _) (ih h)

theorem portable_recvFrom {q : PartyId} (hq : q ∈ parties) {f : Packet → Proto V β}
    (hf : ∀ packet packet', packet.Equal packet' → (f packet).run.Alike parties (f packet').run) :
    (network (Prog.op (.recvFrom q)) >>= f).Portable parties :=
  .recvFrom hq fun packet packet' heq => hf packet packet' heq

theorem portable_mapM {f : α → Proto V β} {l : List α} (hf : ∀ a ∈ l, (f a).Portable parties) :
    (l.mapM f).Portable parties := by
  induction l with
  | nil => exact portable_pure _
  | cons a l ih =>
    obtain ⟨ha, hf⟩ := List.forall_mem_cons.mp hf
    rw [List.mapM_cons]
    exact ha.bind fun _ => (ih hf).bind fun _ => portable_pure _

theorem Portable.execute {id : String} {x : Proto V α} (hx : x.Portable parties) :
    (Proto.execute id x).Portable parties := by
  apply Prog.Alike.bind (.record (.ret _))
  intro _
  apply Prog.Alike.bind hx
  exact fun _ => .record (.ret _)

end SclRs.Proto
