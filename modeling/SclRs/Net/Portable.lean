import SclRs.Net.Sequence
import SclRs.Net.Tcp

/-!
# Code that runs on sockets

A packet that crosses a socket loses its labels, must fit into a frame, and goes to one of the parties that
the network has been created for. Code is `Portable` if it addresses these parties only and does not look at
labels, and packets fit if in no schedule one is on its way that is too long (`NetState.Fits`).
-/

namespace SclRs

namespace Packet

variable {p q r : Packet}

theorem Equal.refl (p : Packet) : p.Equal p := rfl

theorem Equal.symm (h : p.Equal q) : q.Equal p := Eq.symm h

theorem Equal.trans (h : p.Equal q) (h' : q.Equal r) : p.Equal r := Eq.trans h h'

theorem Equal.toAllocvec (h : p.Equal q) (codec : Postcard (List (List UInt8))) :
    p.toAllocvec codec = q.toAllocvec codec := congrArg codec.toAllocvec h

theorem size_eq (p : Packet) :
    p.size = (p.elements.map Element.bytes).foldl (fun total bytes => total + bytes.length) 0 := by
  rw [List.foldl_map]
  rfl

theorem Equal.size (h : p.Equal q) : p.size = q.size := by
  rw [size_eq, size_eq, h]

theorem Equal.pop {α : Type} {codec : Postcard α} (h : p.Equal q) : p.pop codec = q.pop codec := by
  have hlast : p.elements.getLast?.map Element.bytes = q.elements.getLast?.map Element.bytes := by
    rw [← List.getLast?_map, ← List.getLast?_map, h]
  rw [Packet.pop, Packet.pop]
  cases hp : p.elements.getLast? with
  | none =>
    rw [hp, Option.map_none, eq_comm, Option.map_eq_none_iff] at hlast
    rw [hlast]
  | some e =>
    rw [hp, Option.map_some, eq_comm, Option.map_eq_some_iff] at hlast
    obtain ⟨e', hq, hbytes⟩ := hlast
    simp only [hq, hbytes]

theorem Equal.read {α : Type} {codec : Postcard α} (h : p.Equal q) (objIdx : Nat) :
    p.read codec objIdx = q.read codec objIdx := by
  have hget : p.elements[objIdx]?.map Element.bytes = q.elements[objIdx]?.map Element.bytes := by
    rw [← List.getElem?_map, ← List.getElem?_map, h]
  rw [Packet.read, Packet.read]
  cases hp : p.elements[objIdx]? with
  | none =>
    rw [hp, Option.map_none, eq_comm, Option.map_eq_none_iff] at hget
    rw [hget]
  | some e =>
    rw [hp, Option.map_some, eq_comm, Option.map_eq_some_iff] at hget
    obtain ⟨e', hq, hbytes⟩ := hget
    simp only [hq, hbytes]

end Packet

/-- The length that a `LengthDelimitedCodec` takes. -/
def Packet.Sendable (p : Packet) : Prop := p.wireSize ≤ 8 * 1024 * 1024

/-- Code that differs in the labels of packets only, on a network of `parties` whose sockets do not fail. -/
inductive Prog.Alike {ρ : Type} (parties : List PartyId) : Prog ρ → Prog ρ → Prop
  | ret (result : ρ) : Alike parties (.ret result) (.ret result)
  | panic : Alike parties .panic .panic
  | sendTo {partyId : PartyId} {packet packet' : Packet} {next next' : _ → Prog ρ} :
      partyId ∈ parties → packet.Equal packet' →
      Alike parties (next (.ok packet.size)) (next' (.ok packet'.size)) →
      Alike parties (.call (.sendTo partyId packet) next) (.call (.sendTo partyId packet') next')
  | recvFrom {partyId : PartyId} {next next' : _ → Prog ρ} :
      partyId ∈ parties →
      (∀ packet packet', packet.Equal packet' → Alike parties (next (.ok packet)) (next' (.ok packet'))) →
      Alike parties (.call (.recvFrom partyId) next) (.call (.recvFrom partyId) next')
  | recvAny {next next' : _ → Prog ρ} :
      (∀ partyId ∈ parties, ∀ packet packet', packet.Equal packet' →
        Alike parties (next (.ok (partyId, packet))) (next' (.ok (partyId, packet')))) →
      Alike parties (.call .recvAny next) (.call .recvAny next')
  | recvFromWithTimeout {partyId : PartyId} {timeout : Duration} {next next' : _ → Prog ρ} :
      partyId ∈ parties →
      (∀ packet packet', packet.Equal packet' → Alike parties (next (.ok packet)) (next' (.ok packet'))) →
      Alike parties (next (.error (.timeout (some partyId)))) (next' (.error (.timeout (some partyId)))) →
      Alike parties (.call (.recvFromWithTimeout partyId timeout) next)
        (.call (.recvFromWithTimeout partyId timeout) next')
  | recvAnyWithTimeout {timeout : Duration} {next next' : _ → Prog ρ} :
      (∀ partyId ∈ parties, ∀ packet packet', packet.Equal packet' →
        Alike parties (next (.ok (partyId, packet))) (next' (.ok (partyId, packet')))) →
      Alike parties (next (.error (.timeout none))) (next' (.error (.timeout none))) →
      Alike parties (.call (.recvAnyWithTimeout timeout) next) (.call (.recvAnyWithTimeout timeout) next')
  | record {marker : Marker} {next next' : _ → Prog ρ} :
      Alike parties (next ()) (next' ()) →
      Alike parties (.call (.record marker) next) (.call (.record marker) next')

/-- The code runs on sockets between `parties`. -/
def Prog.Portable {ρ : Type} (parties : List PartyId) (prog : Prog ρ) : Prop := prog.Alike parties prog

namespace Prog

variable {ρ α β : Type} {parties : List PartyId}

theorem Alike.bind {p p' : Prog α} {f f' : α → Prog β} (hp : p.Alike parties p')
    (hf : ∀ a, (f a).Alike parties (f' a)) : (p >>= f).Alike parties (p' >>= f') := by
  induction hp with
  | ret a => exact hf a
  | panic => exact .panic
  | sendTo hmem heq _ ih => exact .sendTo hmem heq ih
  | recvFrom hmem _ ih => exact .recvFrom hmem ih
  | recvAny _ ih => exact .recvAny ih
  | recvFromWithTimeout hmem _ _ ih ihTimeout => exact .recvFromWithTimeout hmem ih ihTimeout
  | recvAnyWithTimeout _ _ ih ihTimeout => exact .recvAnyWithTimeout ih ihTimeout
  | record _ ih => exact .record ih

theorem Alike.ret_iff {p p' : Prog ρ} (h : p.Alike parties p') (result : ρ) :
    p = .ret result ↔ p' = .ret result := by
  cases h with
  | ret => rfl
  | panic | sendTo | recvFrom | recvAny | recvFromWithTimeout | recvAnyWithTimeout | record => simp

end Prog

namespace NetState

variable {ρ : Type} {parties : List PartyId} {s t : NetState ρ}

/-- In no schedule a packet is on its way that does not fit into a frame. -/
def Fits (parties : List PartyId) (s : NetState ρ) : Prop :=
  ∀ schedule t, s.run parties schedule = some t → ∀ link, ∀ packet ∈ t.channels link, packet.Sendable

theorem Fits.step (h : s.Fits parties) {act : Act} (hstep : s.step parties act = some t) : t.Fits parties :=
  fun schedule t' hrun => h (act :: schedule) t' (run_cons.mpr ⟨t, hstep, hrun⟩)

/-- The code that is left sends packets that fit into frames, and those on their way do. -/
structure SendsFitting (parties : List PartyId) (s : NetState ρ) : Prop where
  progs : ∀ p ∈ parties, (s.progs p).OnlySends Packet.Sendable
  channels : ∀ link, ∀ packet ∈ s.channels link, packet.Sendable

theorem SendsFitting.goes {program : PartyId → Prog ρ} {prog : Prog ρ} {me : PartyId}
    (h : ∀ p ∈ parties, (program p).OnlySends Packet.Sendable) (hprog : prog.OnlySends Packet.Sendable) :
    ∀ p ∈ parties, (Function.update program me prog p).OnlySends Packet.Sendable := by
  intro p hp
  rw [Function.update_apply]
  split_ifs
  · exact hprog
  · exact h p hp

theorem SendsFitting.step (h : s.SendsFitting parties) {act : Act} (hstep : s.step parties act = some t) :
    t.SendsFitting parties := by
  obtain ⟨hme, op, next, hprog, ⟨-, out, -, rfl⟩ | ⟨sender, packet, out, -, -, -, -, rfl⟩⟩ := step_eq_some.mp hstep
  · have hsends : (Prog.call op next).OnlySends Packet.Sendable := hprog ▸ h.progs _ hme
    refine ⟨SendsFitting.goes h.progs (hsends.next out), fun link packet hpacket => ?_⟩
    change packet ∈ op.dispatch act.party s.channels link at hpacket
    cases hsends with
    | sendTo hsendable =>
      rw [NetOp.dispatch, pushPacket, Function.update_apply] at hpacket
      split_ifs at hpacket with hlink
      · obtain hold | hnew := List.mem_append.mp hpacket
        · exact h.channels _ packet hold
        · exact List.mem_singleton.mp hnew ▸ hsendable
      · exact h.channels link packet hpacket
    | recvFrom | record => exact h.channels link packet hpacket
  · have hsends : (Prog.call op next).OnlySends Packet.Sendable := hprog ▸ h.progs _ hme
    refine ⟨SendsFitting.goes h.progs (hsends.next out), fun link packet' hpacket => ?_⟩
    change packet' ∈ dropPacket s.channels ⟨sender, act.party⟩ link at hpacket
    rw [dropPacket, Function.update_apply] at hpacket
    split_ifs at hpacket with hlink
    · exact h.channels _ packet' (List.mem_of_mem_tail hpacket)
    · exact h.channels link packet' hpacket

theorem SendsFitting.run (h : s.SendsFitting parties) {schedule : List Act}
    (hrun : s.run parties schedule = some t) : t.SendsFitting parties := by
  induction schedule generalizing s with
  | nil => exact Option.some.inj hrun ▸ h
  | cons act schedule ih =>
    obtain ⟨u, hstep, hrun⟩ := run_cons.mp hrun
    exact ih (h.step hstep) hrun

theorem fits_of_onlySends {program : PartyId → Prog ρ}
    (h : ∀ p ∈ parties, (program p).OnlySends Packet.Sendable) : (init program).Fits parties := by
  have hinit : (init program).SendsFitting parties := ⟨h, fun _ _ hpacket => absurd hpacket List.not_mem_nil⟩
  exact fun _ _ hrun => (hinit.run hrun).channels

theorem pushed_proceed (s : NetState ρ) (me : PartyId) (op : NetOp) (prog : Prog ρ) (link : Link) :
    s.received link ++ s.channels link <+:
      (s.proceed me op prog).received link ++ (s.proceed me op prog).channels link := by
  refine (List.prefix_append_right_inj _).mpr ?_
  change s.channels link <+: op.dispatch me s.channels link
  cases op with
  | sendTo q packet =>
    rw [NetOp.dispatch, pushPacket, Function.update_apply]
    split_ifs with hlink
    · rw [hlink]
      exact List.prefix_append _ _
    · exact List.prefix_refl _
  | recvFrom | recvAny | recvFromWithTimeout | recvAnyWithTimeout | record => exact List.prefix_refl _

theorem pushed_take {link : Link} {packet : Packet} (hhead : (s.channels link).head? = some packet) (prog : Prog ρ)
    (link' : Link) :
    (s.take link packet prog).received link' ++ (s.take link packet prog).channels link' =
      s.received link' ++ s.channels link' := by
  change pushPacket s.received link packet link' ++ dropPacket s.channels link link' = _
  rw [pushPacket, dropPacket, Function.update_apply, Function.update_apply]
  split_ifs with hlink
  · obtain ⟨rest, hrest⟩ := List.head?_eq_some_iff.mp hhead
    rw [hlink, hrest, List.tail_cons, List.append_assoc, List.singleton_append]
  · rfl

theorem pushed_prefix_of_step {act : Act} (hstep : s.step parties act = some t) (link : Link) :
    s.received link ++ s.channels link <+: t.received link ++ t.channels link := by
  obtain ⟨-, op, next, -, ⟨-, out, -, rfl⟩ | ⟨sender, packet, out, -, -, hhead, -, rfl⟩⟩ := step_eq_some.mp hstep
  · exact pushed_proceed s act.party op (next out) link
  · rw [pushed_take hhead]

theorem pushed_prefix_of_run {schedule : List Act} (hrun : s.run parties schedule = some t) (link : Link) :
    s.received link ++ s.channels link <+: t.received link ++ t.channels link := by
  induction schedule generalizing s with
  | nil => rw [Option.some.inj hrun]
  | cons act schedule ih =>
    obtain ⟨u, hstep, hrun⟩ := run_cons.mp hrun
    exact (pushed_prefix_of_step hstep link).trans (ih hrun)

theorem Carries.fits {result : PartyId → ρ} {traffic : Link → List Packet} (h : s.Carries parties result traffic)
    (hfits : ∀ link, ∀ packet ∈ traffic link, packet.Sendable) : s.Fits parties := by
  intro schedule t hrun link packet hpacket
  obtain ⟨rest, final, hrest, hmax⟩ := exists_maximal parties t
  have hfinal : s.run parties (schedule ++ rest) = some final := (run_append hrun).trans hrest
  have hsent := pushed_prefix_of_run hrest link
  rw [h.carried _ final hfinal hmax, h.empty _ final hfinal hmax, List.append_nil] at hsent
  exact hfits link packet (hsent.subset (List.mem_append_right _ hpacket))

end NetState

end SclRs
