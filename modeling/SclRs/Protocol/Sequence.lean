import SclRs.Net.Sequence
import SclRs.Protocol

/-!
# Protocols in sequence

`Net.Sequence` for code that may fail: where the first protocol succeeds at every party, the rest runs as
it would on its own, and so does a protocol between its markers. `Proto.Directed` says that the code names
its senders.
-/

namespace SclRs.Proto

variable {V α β : Type}

/-! ### Code that names its senders -/

/-- The code uses only `send_to`, `recv_from` and trace markers. -/
def Directed (x : Proto V α) : Prop := x.run.Directed

theorem directed_pure (a : α) : (pure a : Proto V α).Directed := .ret _

theorem Directed.bind {x : Proto V α} {f : α → Proto V β} (hx : x.Directed) (hf : ∀ a, (f a).Directed) :
    (x >>= f).Directed := by
  apply Prog.Directed.bind hx
  intro r
  cases r with
  | ok a => exact hf a
  | error e => exact .ret _

theorem directed_ofOption (o : Option α) : (ofOption o : Proto V α).Directed := by
  cases o with
  | none => exact .panic
  | some a => exact .ret _

theorem directed_ofNetwork (r : Except NetworkError α) : (ofNetwork r : Proto V α).Directed := by
  cases r <;> exact .ret _

theorem directed_ofShare {ε : Type} (box : ε → BoxedError V) (r : Except ε α) : (ofShare box r).Directed := by
  cases r <;> exact .ret _

theorem directed_ofResult (r : Except (ProtocolError V) α) : (ofResult r).Directed := by
  cases r <;> exact .ret _

theorem directed_network {p : Prog (Except NetworkError α)} (hp : p.Directed) :
    (network p : Proto V α).Directed :=
  Directed.bind (x := ExceptT.lift p) (hp.bind fun _ => .ret _) directed_ofNetwork

theorem directed_sendTo (q : PartyId) (packet : Packet) :
    (network (Prog.op (.sendTo q packet)) : Proto V Nat).Directed :=
  directed_network (.sendTo fun _ => .ret _)

theorem directed_recvFrom (q : PartyId) : (network (Prog.op (.recvFrom q)) : Proto V Packet).Directed :=
  directed_network (.recvFrom fun _ => .ret _)

theorem directed_sendMany (messages : List (PartyId × Packet)) :
    (network (Prog.sendMany messages) : Proto V Unit).Directed :=
  directed_network (.sendMany messages)

theorem directed_mapM {f : α → Proto V β} {l : List α} (hf : ∀ a ∈ l, (f a).Directed) :
    (l.mapM f).Directed := by
  induction l with
  | nil => exact directed_pure _
  | cons a l ih =>
    obtain ⟨ha, hf⟩ := List.forall_mem_cons.mp hf
    rw [List.mapM_cons]
    exact ha.bind fun _ => (ih hf).bind fun _ => directed_pure _

theorem directed_recvEach (me : PartyId) (own : β) (decode : Packet → Except NetworkError β)
    (parties : List PartyId) : (recvEach me own decode parties : Proto V (List β)).Directed := by
  refine directed_mapM fun q _ => ?_
  split_ifs
  · exact (directed_recvFrom q).bind fun _ => directed_ofNetwork _
  · exact directed_pure _

theorem directed_sendEach (packet : Packet) (parties : List PartyId) :
    (sendEach packet parties : Proto V Unit).Directed := by
  induction parties with
  | nil => exact directed_pure _
  | cons q parties ih =>
    exact ((directed_sendTo q packet).bind fun _ => directed_pure _).bind fun _ => ih

theorem Directed.execute {id : String} {x : Proto V α} (hx : x.Directed) :
    (Proto.execute id x).Directed := by
  apply Prog.Directed.bind (.record fun _ => .ret _)
  intro _
  apply Prog.Directed.bind hx
  exact fun _ => .record fun _ => .ret _

/-! ### Networks -/

open NetState

def net (x : PartyId → Proto V α) : NetState (Except (ProtocolError V) α) := .init fun p => (x p).run

variable {parties : List PartyId} {x : PartyId → Proto V α} {f : PartyId → α → Proto V β}
  {a : PartyId → α} {b : PartyId → β}

theorem completes_bind (hdirected : ∀ p ∈ parties, (x p).Directed)
    (hx : (net x).Completes parties fun p => .ok (a p))
    (hf : (net fun p => f p (a p)).Completes parties fun p => .ok (b p)) :
    (net fun p => x p >>= f p).Completes parties fun p => .ok (b p) :=
  Completes.sequence (fun p => ExceptT.bindCont (f p))
    (apart_of_directed hdirected hx.toFinishes) hx hf

theorem carries_bind {traffic traffic' : Link → List Packet} (hdirected : ∀ p ∈ parties, (x p).Directed)
    (hx : (net x).Carries parties (fun p => .ok (a p)) traffic)
    (hf : (net fun p => f p (a p)).Carries parties (fun p => .ok (b p)) traffic') :
    (net fun p => x p >>= f p).Carries parties (fun p => .ok (b p)) fun link => traffic link ++ traffic' link :=
  Carries.sequence (fun p => ExceptT.bindCont (f p)) (apart_of_directed hdirected hx.toFinishes) hx hf

/-- Code that exchanges nothing. -/
def silentScript : Script := ⟨fun _ => [], fun _ _ => 0, fun _ => 0⟩

theorem carries_of_silent {ρ : Type} {program : PartyId → Prog ρ} {result : PartyId → ρ}
    (h : ∀ p ∈ parties, (program p).Follows silentScript parties anyone p (· = result p) (fun _ => 0)
      (fun _ => 0) 0) : (NetState.init program).Carries parties result fun _ => [] :=
  carries_of_follows (fun _ => rfl) (fun _ h => absurd rfl h) h

theorem carries_of_eq_pure (h : ∀ p ∈ parties, x p = pure (a p)) :
    (net x).Carries parties (fun p => .ok (a p)) fun _ => [] := by
  refine carries_of_silent fun p hp => ?_
  rw [h p hp]
  exact .ret rfl (fun _ => rfl) fun _ => rfl

variable (parties) in
theorem carries_record (marker : Marker) :
    (NetState.init fun _ : PartyId => Prog.op (.record marker)).Carries parties (fun _ => ()) fun _ => [] :=
  carries_of_silent fun _ _ => .record (.ret rfl (fun _ => rfl) fun _ => rfl)

def recordEnd (id : String) (out : Except (ProtocolError V) α) : Prog (Except (ProtocolError V) α) :=
  Prog.op (.record (.protocolEnd id)) >>= fun _ => pure out

theorem carries_recordEnd (id : String) (out : PartyId → Except (ProtocolError V) α) :
    (NetState.init fun p => recordEnd id (out p)).Carries parties out fun _ => [] :=
  carries_of_silent fun _ _ => .record (.ret rfl (fun _ => rfl) fun _ => rfl)

theorem apart_recordEnd {program : PartyId → Prog (Except (ProtocolError V) α)}
    {result : PartyId → Except (ProtocolError V) α} (id : String) :
    Apart parties (fun _ => recordEnd id) result program :=
  apart_of_silent fun _ _ => .record fun _ => .ret _

variable (parties) in
theorem apart_record {rest : PartyId → Unit → Prog β} (marker : Marker) :
    Apart parties rest (fun _ => ()) fun _ => Prog.op (.record marker) :=
  apart_of_directed (fun _ _ => .record fun _ => .ret _) (carries_record parties marker).toFinishes

theorem completes_execute (id : String) (hx : (net x).Completes parties fun p => .ok (a p)) :
    (net fun p => Proto.execute id (x p)).Completes parties fun p => .ok (a p) := by
  have hend : (NetState.init fun p => (x p).run >>= recordEnd id).Completes parties fun p => .ok (a p) :=
    .sequence (fun _ => recordEnd id) (apart_recordEnd id) hx (carries_recordEnd id _).toCompletes
  exact .sequence (fun p _ => (x p).run >>= recordEnd id) (apart_record parties _)
    (carries_record parties _).toCompletes hend

theorem carries_execute {traffic : Link → List Packet} (id : String)
    (hx : (net x).Carries parties (fun p => .ok (a p)) traffic) :
    (net fun p => Proto.execute id (x p)).Carries parties (fun p => .ok (a p)) traffic := by
  have hend : (NetState.init fun p => (x p).run >>= recordEnd id).Carries parties (fun p => .ok (a p))
      fun link => traffic link ++ [] :=
    .sequence (fun _ => recordEnd id) (apart_recordEnd id) hx (carries_recordEnd id _)
  have hall := Carries.sequence (fun p _ => (x p).run >>= recordEnd id) (apart_record parties _)
    (carries_record parties (.protocolBegin id)) hend
  simp only [List.nil_append, List.append_nil] at hall
  exact hall

theorem carries_ofOption {o : PartyId → Option α} (ho : ∀ p ∈ parties, o p = some (a p)) :
    (net fun p => (ofOption (o p) : Proto V α)).Carries parties (fun p => .ok (a p)) fun _ => [] :=
  carries_of_eq_pure fun p hp => by rw [ho p hp]; rfl

theorem completes_pure (a : PartyId → α) :
    (net fun p => (pure (a p) : Proto V α)).Completes parties fun p => .ok (a p) :=
  (carries_of_eq_pure fun _ _ => rfl).toCompletes

theorem completes_ofOption_bind {γ : Type} {o : PartyId → Option γ} {c : PartyId → γ}
    {g : PartyId → γ → Proto V β} (ho : ∀ p ∈ parties, o p = some (c p))
    (hg : (net fun p => g p (c p)).Completes parties fun p => .ok (b p)) :
    (net fun p => ofOption (o p) >>= g p).Completes parties fun p => .ok (b p) :=
  completes_bind (fun _ _ => directed_ofOption _) (carries_ofOption ho).toCompletes hg

theorem carries_ofOption_bind {γ : Type} {o : PartyId → Option γ} {c : PartyId → γ}
    {g : PartyId → γ → Proto V β} {traffic : Link → List Packet} (ho : ∀ p ∈ parties, o p = some (c p))
    (hg : (net fun p => g p (c p)).Carries parties (fun p => .ok (b p)) traffic) :
    (net fun p => ofOption (o p) >>= g p).Carries parties (fun p => .ok (b p)) traffic :=
  carries_bind (fun _ _ => directed_ofOption _) (carries_ofOption ho) hg

theorem completes_mapM {ι : Type} {f : PartyId → ι → Proto V β} {b : ι → PartyId → β} {l : List ι}
    (hdirected : ∀ p ∈ parties, ∀ i ∈ l, (f p i).Directed)
    (h : ∀ i ∈ l, (net fun p => f p i).Completes parties fun p => .ok (b i p)) :
    (net fun p => l.mapM (f p)).Completes parties fun p => .ok (l.map fun i => b i p) := by
  induction l with
  | nil => exact completes_pure _
  | cons i l ih =>
    simp only [List.mapM_cons]
    refine completes_bind (fun p hp => hdirected p hp i List.mem_cons_self) (h i List.mem_cons_self) ?_
    refine completes_bind (fun p hp => ?_) (ih (fun p hp j hj => ?_) fun j hj => ?_) (completes_pure _)
    · exact directed_mapM fun j hj => hdirected p hp j (List.mem_cons_of_mem _ hj)
    · exact hdirected p hp j (List.mem_cons_of_mem _ hj)
    · exact h j (List.mem_cons_of_mem _ hj)

end SclRs.Proto
