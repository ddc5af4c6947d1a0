import Mathlib.Algebra.BigOperators.Group.Finset.Piecewise
import Mathlib.Algebra.Ring.Nat
import SclRs.Net.Invocation

/-!
# Bandwidth profiling

`ProtocolBandwidthTree` of `simulator.rs` and `MetricHook` of `hook.rs`: the tree that `parse` rebuilds
from a trace, the lines that `write_folded` writes of it, and the totals that the hook counts. All three
depend on the marks of a trace alone, its sends and its protocol markers. From the marks of a call tree
`parse` rebuilds the tree (`parse_invocation`). Numbers of bytes are natural numbers.
-/

namespace SclRs

structure ProtocolBandwidthTree where
  id : ProtocolId
  selfBytes : Nat
  children : List ProtocolBandwidthTree

namespace ProtocolBandwidthTree

/-- The loop of `parse` at the node `metric`, with the events where it leaves the cursor. -/
def parseLoop (metric : ProtocolBandwidthTree) (events : List Event) :
    ProtocolBandwidthTree × { rest : List Event // rest.length ≤ events.length } :=
  match events with
  | [] => (metric, ⟨[], Nat.le_refl _⟩)
  | first :: rest =>
    match first with
    | .sendData _ link size _ =>
      let metric :=
        if link.sender ≠ link.recipient then { metric with selfBytes := metric.selfBytes + size }
        else metric
      let (tree, rest') := parseLoop metric rest
      (tree, ⟨rest', Nat.le_succ_of_le rest'.2⟩)
    | .protocolBegin _ protocolName =>
      let (child, rest') := parseLoop ⟨protocolName, 0, []⟩ rest
      let (tree, rest'') := parseLoop { metric with children := metric.children ++ [child] } rest'
      (tree, ⟨rest'', Nat.le_succ_of_le (Nat.le_trans rest''.2 rest'.2)⟩)
    | .protocolEnd .. => (metric, ⟨rest, Nat.le_succ _⟩)
    | _ =>
      let (tree, rest') := parseLoop metric rest
      (tree, ⟨rest', Nat.le_succ_of_le rest'.2⟩)
termination_by events.length
decreasing_by all_goals grind

/-- `parse`, of which the caller goes on with the events left. -/
def parse (protocolId : ProtocolId) (events : List Event) : ProtocolBandwidthTree × List Event :=
  let (tree, rest) := parseLoop ⟨protocolId, 0, []⟩ events
  (tree, rest)

structure FoldedLine where
  path : List ProtocolId
  count : Nat
deriving DecidableEq

def FoldedLine.text (line : FoldedLine) : String :=
  ";".intercalate line.path ++ " " ++ toString line.count ++ "\n"

section
variable {W E : Type} (writeAll : W → String → Except E W)

mutual

/-- `fold`, into an `out` whose `write_all` may fail. -/
def fold (out : W) (path : List ProtocolId) : ProtocolBandwidthTree → Except E W
  | ⟨id, selfBytes, children⟩ => do
    let path := path ++ [id]
    let out ← if selfBytes > 0 then writeAll out (FoldedLine.text ⟨path, selfBytes⟩) else .ok out
    foldChildren out path children

/-- The loop of `fold` over the children. -/
def foldChildren (out : W) (path : List ProtocolId) : List ProtocolBandwidthTree → Except E W
  | [] => .ok out
  | child :: children => do
    let out ← fold out path child
    foldChildren out path children

end

def writeFolded (tree : ProtocolBandwidthTree) (out : W) : Except E W := fold writeAll out [] tree

end

mutual

def lines (path : List ProtocolId) : ProtocolBandwidthTree → List FoldedLine
  | ⟨id, selfBytes, children⟩ =>
    (if selfBytes > 0 then [⟨path ++ [id], selfBytes⟩] else []) ++ childrenLines (path ++ [id]) children

def childrenLines (path : List ProtocolId) : List ProtocolBandwidthTree → List FoldedLine
  | [] => []
  | child :: children => lines path child ++ childrenLines path children

end

mutual

def total : ProtocolBandwidthTree → Nat
  | ⟨_, selfBytes, children⟩ => selfBytes + childrenTotal children

def childrenTotal : List ProtocolBandwidthTree → Nat
  | [] => 0
  | child :: children => total child + childrenTotal children

end

mutual

theorem sum_lines (path : List ProtocolId) : (tree : ProtocolBandwidthTree) →
    ((tree.lines path).map FoldedLine.count).sum = tree.total
  | ⟨id, selfBytes, children⟩ => by
    rw [lines, total, List.map_append, List.sum_append, sum_childrenLines]
    split_ifs with hpos
    · rw [List.map_singleton, List.sum_singleton]
    · rw [List.map_nil, List.sum_nil]
      omega

theorem sum_childrenLines (path : List ProtocolId) : (children : List ProtocolBandwidthTree) →
    ((childrenLines path children).map FoldedLine.count).sum = childrenTotal children
  | [] => rfl
  | child :: children => by
    rw [childrenLines, childrenTotal, List.map_append, List.sum_append, sum_lines, sum_childrenLines]

end

section
variable {W E : Type} (writeAll : W → String → Except E W)

mutual

theorem fold_eq (path : List ProtocolId) : (tree : ProtocolBandwidthTree) → (out : W) →
    fold writeAll out path tree =
      (tree.lines path).foldlM (fun out line => writeAll out line.text) out
  | ⟨id, selfBytes, children⟩, out => by
    rw [fold, lines, List.foldlM_append]
    split_ifs with hpos
    · rw [List.foldlM_cons]
      cases writeAll out (FoldedLine.text ⟨path ++ [id], selfBytes⟩) with
      | error e => rfl
      | ok out => exact foldChildren_eq _ children out
    · exact foldChildren_eq _ children out

theorem foldChildren_eq (path : List ProtocolId) : (children : List ProtocolBandwidthTree) →
    (out : W) → foldChildren writeAll out path children =
      (childrenLines path children).foldlM (fun out line => writeAll out line.text) out
  | [], out => rfl
  | child :: children, out => by
    rw [foldChildren, childrenLines, List.foldlM_append, fold_eq path child out]
    cases (child.lines path).foldlM (fun out line => writeAll out line.text) out with
    | error e => rfl
    | ok out => exact foldChildren_eq path children out

end

theorem writeFolded_eq (tree : ProtocolBandwidthTree) (out : W) :
    tree.writeFolded writeAll out =
      (tree.lines []).foldlM (fun out line => writeAll out line.text) out :=
  fold_eq writeAll [] tree out

end

end ProtocolBandwidthTree

/-! ### The hook -/

inductive EventType
  | start
  | stop
  | sendData
  | receiveData
  | output
  | protocolBegin
  | protocolEnd
deriving DecidableEq

def Event.eventType : Event → EventType
  | .start _ => .start
  | .stop _ => .stop
  | .sendData .. => .sendData
  | .receiveData .. => .receiveData
  | .output .. => .output
  | .protocolBegin .. => .protocolBegin
  | .protocolEnd .. => .protocolEnd

structure MetricHook where
  totalData : Nat
  totalDataPerParty : PartyId → Option Nat

namespace MetricHook

/-- `MetricHook::new` with counters that start at zero. -/
def new : MetricHook := ⟨0, fun _ => none⟩

def totalDataBy (hook : MetricHook) (partyId : PartyId) : Option Nat := hook.totalDataPerParty partyId

def trigger : Option EventType := some .sendData

def run (hook : MetricHook) (_party : PartyId) (event : Event) : MetricHook :=
  match event with
  | .sendData _ link size _ =>
    if link.sender = link.recipient then hook
    else
      { totalData := hook.totalData + size
        totalDataPerParty := Function.update hook.totalDataPerParty link.sender
          (some ((hook.totalDataPerParty link.sender).getD 0 + size)) }
  | _ => hook

/-- The part of `record_event` that is about the hook: it runs where its trigger is the event's type. -/
def triggered (hook : MetricHook) (call : PartyId × Event) : MetricHook :=
  if trigger.all (· = call.2.eventType) then hook.run call.1 call.2 else hook

def after (calls : List (PartyId × Event)) : MetricHook := calls.foldl triggered new

end MetricHook

/-! ### Marks -/

/-- What the profile depends on. -/
inductive Mark
  | sent (link : Link) (size : Nat)
  | begins (id : ProtocolId)
  | ends (id : ProtocolId)

def Event.mark : Event → Option Mark
  | .sendData _ link size _ => some (.sent link size)
  | .protocolBegin _ id => some (.begins id)
  | .protocolEnd _ id => some (.ends id)
  | _ => none

/-- The payload bytes of a send to another party. -/
def Mark.bytes : Mark → Nat
  | sent link size => if link.sender ≠ link.recipient then size else 0
  | _ => 0

def bytesOf (marks : List Mark) : Nat := (marks.map Mark.bytes).sum

@[simp] theorem bytesOf_nil : bytesOf [] = 0 := rfl

@[simp] theorem bytesOf_cons (mark : Mark) (marks : List Mark) :
    bytesOf (mark :: marks) = mark.bytes + bytesOf marks := rfl

@[simp] theorem bytesOf_append (marks marks' : List Mark) :
    bytesOf (marks ++ marks') = bytesOf marks + bytesOf marks' := by
  rw [bytesOf, List.map_append, List.sum_append]
  rfl

/-- The mark that an operation of party `me` leaves. -/
def Performed.mark (me : PartyId) (performed : Performed) : Option Mark :=
  match performed.op with
  | .sendTo partyId packet => some (.sent ⟨me, partyId⟩ packet.size)
  | .record (.protocolBegin id) => some (.begins id)
  | .record (.protocolEnd id) => some (.ends id)
  | _ => none

namespace Invocation

variable (me : PartyId)

/-- The payload bytes that the invocation sent itself to other parties. -/
def selfBytes : Invocation → Nat
  | done => 0
  | op performed _ rest => ((performed.mark me).map Mark.bytes).getD 0 + rest.selfBytes
  | call _ _ rest => rest.selfBytes

/-- **The call trees of the invocations that it made**, in call order. -/
def children : Invocation → List ProtocolBandwidthTree
  | done => []
  | op _ _ rest => rest.children
  | call id callee rest => ⟨id, callee.selfBytes me, callee.children⟩ :: rest.children

/-- The call tree of an invocation of protocol `id`. -/
def tree (id : ProtocolId) (inv : Invocation) : ProtocolBandwidthTree :=
  ⟨id, inv.selfBytes me, inv.children me⟩

def marks (inv : Invocation) : List Mark := inv.log.filterMap (Performed.mark me)

theorem marks_op {performed : Performed} (hop : performed.op.isRecord = false) (rest : Invocation) :
    (op performed hop rest).marks me = (performed.mark me).toList ++ rest.marks me := by
  rw [marks, log, List.filterMap_cons]
  cases performed.mark me <;> rfl

theorem marks_call (id : ProtocolId) (callee rest : Invocation) :
    (call id callee rest).marks me =
      .begins id :: (callee.marks me ++ .ends id :: rest.marks me) := by
  have hbegins : Performed.mark me ⟨.record (.protocolBegin id), ()⟩ = some (.begins id) := rfl
  have hends : Performed.mark me ⟨.record (.protocolEnd id), ()⟩ = some (.ends id) := rfl
  rw [marks, log, List.filterMap_cons_some hbegins, List.filterMap_append,
    List.filterMap_cons_some hends]
  rfl

end Invocation

theorem Performed.mark_eq {performed : Performed} (hop : performed.op.isRecord = false) (me : PartyId) :
    performed.mark me = none ∨ ∃ link size, performed.mark me = some (.sent link size) := by
  obtain ⟨op, out⟩ := performed
  cases op with
  | sendTo partyId packet => exact .inr ⟨_, _, rfl⟩
  | recvFrom | recvAny | recvFromWithTimeout | recvAnyWithTimeout => exact .inl rfl
  | record => cases hop

/-! ### The tree of a trace -/

namespace ProtocolBandwidthTree

/-- The rest of `parse` at a node. -/
def parseFrom (metric : ProtocolBandwidthTree) (events : List Event) :
    ProtocolBandwidthTree × List Event :=
  ((parseLoop metric events).1, (parseLoop metric events).2)

def extend (metric : ProtocolBandwidthTree) (bytes : Nat) (children : List ProtocolBandwidthTree) :
    ProtocolBandwidthTree :=
  ⟨metric.id, metric.selfBytes + bytes, metric.children ++ children⟩

@[simp] theorem extend_zero_nil (metric : ProtocolBandwidthTree) : metric.extend 0 [] = metric := by
  obtain ⟨id, selfBytes, children⟩ := metric
  simp [extend]

@[simp] theorem extend_extend (metric : ProtocolBandwidthTree) (b b' : Nat)
    (cs cs' : List ProtocolBandwidthTree) :
    (metric.extend b cs).extend b' cs' = metric.extend (b + b') (cs ++ cs') := by
  simp [extend, Nat.add_assoc]

variable (metric : ProtocolBandwidthTree) {event : Event} {events : List Event}

@[simp] theorem parseFrom_nil : parseFrom metric [] = (metric, []) := by
  simp [parseFrom, parseLoop]

theorem parseFrom_of_none (h : event.mark = none) (rest : List Event) :
    parseFrom metric (event :: rest) = parseFrom metric rest := by
  cases event with
  | sendData | protocolBegin | protocolEnd => cases h
  | start | stop | receiveData | output => simp [parseFrom, parseLoop]

theorem parseFrom_of_sent {link : Link} {size : Nat} (h : event.mark = some (.sent link size))
    (rest : List Event) :
    parseFrom metric (event :: rest) = parseFrom (metric.extend (Mark.sent link size).bytes []) rest := by
  cases event with
  | sendData _ link' size' =>
    obtain ⟨rfl, rfl⟩ := Mark.sent.inj (Option.some.inj h)
    rw [parseFrom, parseLoop]
    by_cases hself : link'.sender = link'.recipient
    · simp [hself, Mark.bytes, parseFrom]
    · simp [hself, extend, Mark.bytes, parseFrom]
  | protocolBegin | protocolEnd | start | stop | receiveData | output => cases h

theorem parseFrom_of_begins {id : ProtocolId} (h : event.mark = some (.begins id)) (rest : List Event) :
    parseFrom metric (event :: rest) =
      parseFrom (metric.extend 0 [(parseFrom ⟨id, 0, []⟩ rest).1]) (parseFrom ⟨id, 0, []⟩ rest).2 := by
  cases event with
  | protocolBegin _ id' =>
    obtain rfl := Mark.begins.inj (Option.some.inj h)
    rw [parseFrom, parseLoop]
    rfl
  | sendData | protocolEnd | start | stop | receiveData | output => cases h

theorem parseFrom_of_ends {id : ProtocolId} (h : event.mark = some (.ends id)) (rest : List Event) :
    parseFrom metric (event :: rest) = (metric, rest) := by
  cases event with
  | protocolEnd => simp [parseFrom, parseLoop]
  | sendData | protocolBegin | start | stop | receiveData | output => cases h

theorem exists_mark {mark : Mark} {tail : List Mark} (h : events.filterMap Event.mark = mark :: tail) :
    ∃ event rest, event.mark = some mark ∧ rest.filterMap Event.mark = tail ∧
      ∀ metric, parseFrom metric events = parseFrom metric (event :: rest) := by
  induction events with
  | nil => cases h
  | cons event events ih =>
    cases hmark : event.mark with
    | none =>
      rw [List.filterMap_cons_none hmark] at h
      obtain ⟨event', rest, hevent, hrest, hparse⟩ := ih h
      exact ⟨event', rest, hevent, hrest, fun metric =>
        (parseFrom_of_none metric hmark events).trans (hparse metric)⟩
    | some mark' =>
      rw [List.filterMap_cons_some hmark] at h
      obtain ⟨rfl, htail⟩ := List.cons.inj h
      exact ⟨event, events, hmark, htail, fun _ => rfl⟩

theorem parseFrom_of_unmarked (h : events.filterMap Event.mark = []) :
    (parseFrom metric events).1 = metric := by
  induction events with
  | nil => simp
  | cons event events ih =>
    cases hmark : event.mark with
    | none =>
      rw [List.filterMap_cons_none hmark] at h
      rw [parseFrom_of_none metric hmark, ih h]
    | some mark =>
      rw [List.filterMap_cons_some hmark] at h
      cases h

/-- **From the marks of an invocation the loop rebuilds what it did.** -/
theorem parse_invocation (me : PartyId) (inv : Invocation) {tail : List Mark}
    (h : events.filterMap Event.mark = inv.marks me ++ tail) :
    ∃ rest, rest.filterMap Event.mark = tail ∧ ∀ metric, parseFrom metric events =
      parseFrom (metric.extend (inv.selfBytes me) (inv.children me)) rest := by
  induction inv generalizing events tail with
  | done => exact ⟨events, h, fun metric => by simp [Invocation.selfBytes, Invocation.children]⟩
  | op performed hop inv ih =>
    rw [Invocation.marks_op, List.append_assoc] at h
    rcases performed.mark_eq hop me with hmark | ⟨link, size, hmark⟩
    · rw [hmark] at h
      obtain ⟨rest, hrest, hparse⟩ := ih h
      refine ⟨rest, hrest, fun metric => ?_⟩
      rw [hparse, Invocation.selfBytes, Invocation.children, hmark]
      simp
    · rw [hmark] at h
      obtain ⟨event, events', hevent, hevents, hnext⟩ := exists_mark h
      obtain ⟨rest, hrest, hparse⟩ := ih hevents
      refine ⟨rest, hrest, fun metric => ?_⟩
      rw [hnext, parseFrom_of_sent metric hevent, hparse, extend_extend, Invocation.selfBytes,
        Invocation.children, hmark]
      rfl
  | call id callee inv ihcallee ih =>
    rw [Invocation.marks_call, List.cons_append, List.append_assoc] at h
    obtain ⟨begin, events₁, hbegin, hevents₁, hnext⟩ := exists_mark h
    obtain ⟨events₂, hevents₂, hcallee⟩ := ihcallee hevents₁
    obtain ⟨ends, events₃, hends, hevents₃, hend⟩ := exists_mark hevents₂
    obtain ⟨rest, hrest, hparse⟩ := ih hevents₃
    refine ⟨rest, hrest, fun metric => ?_⟩
    -- the callee's node ends at its end marker, and the cursor goes on behind it
    have hnode : parseFrom ⟨id, 0, []⟩ events₁ = (callee.tree me id, events₃) := by
      rw [hcallee, hend, parseFrom_of_ends _ hends]
      simp [extend, Invocation.tree]
    rw [hnext, parseFrom_of_begins metric hbegin, hnode, hparse, extend_extend, Nat.zero_add]
    rfl

end ProtocolBandwidthTree

/-! ### Totals -/

open ProtocolBandwidthTree in
theorem Invocation.total_children (me : PartyId) (inv : Invocation) :
    inv.selfBytes me + childrenTotal (inv.children me) = bytesOf (inv.marks me) := by
  induction inv with
  | done => rfl
  | op performed hop rest ih =>
    rw [marks_op, bytesOf_append, ← ih, selfBytes, children]
    cases performed.mark me with
    | none => simp
    | some mark => simp [Nat.add_assoc]
  | call id callee rest ihcallee ih =>
    rw [marks_call, bytesOf_cons, bytesOf_append, bytesOf_cons, ← ihcallee, ← ih, selfBytes, children,
      childrenTotal, total]
    simp only [Mark.bytes]
    omega

/-- The payload bytes of a send to another party; any other event has none. -/
def Event.bytes (event : Event) : Nat := (event.mark.map Mark.bytes).getD 0

/-- A send is recorded by its sender. -/
def OwnSend (call : PartyId × Event) : Prop :=
  ∀ link size, call.2.mark = some (.sent link size) → link.sender = call.1

namespace MetricHook

variable (hook : MetricHook) (call : PartyId × Event)

theorem triggered_sendData (party : PartyId) (t : Duration) (link : Link) (size : Nat)
    (contentCount : List (String × Nat)) :
    hook.triggered (party, .sendData t link size contentCount) =
      if link.sender = link.recipient then hook
      else ⟨hook.totalData + size, Function.update hook.totalDataPerParty link.sender
        (some ((hook.totalDataPerParty link.sender).getD 0 + size))⟩ := rfl

theorem triggered_totalData : (hook.triggered call).totalData = hook.totalData + call.2.bytes := by
  obtain ⟨party, event⟩ := call
  cases event with
  | sendData t link size contentCount =>
    have hbytes : (Event.sendData t link size contentCount).bytes =
        if link.sender ≠ link.recipient then size else 0 := rfl
    rw [triggered_sendData, hbytes]
    by_cases hself : link.sender = link.recipient <;> simp [hself]
  | start | stop | receiveData | output | protocolBegin | protocolEnd => rfl

theorem triggered_totalDataBy (hsender : OwnSend call) (p : PartyId) :
    ((hook.triggered call).totalDataBy p).getD 0 =
      (hook.totalDataBy p).getD 0 + if p = call.1 then call.2.bytes else 0 := by
  obtain ⟨party, event⟩ := call
  cases event with
  | sendData t link size contentCount =>
    obtain rfl : link.sender = party := hsender link size rfl
    have hbytes : (Event.sendData t link size contentCount).bytes =
        if link.sender ≠ link.recipient then size else 0 := rfl
    rw [triggered_sendData, hbytes]
    by_cases hself : link.sender = link.recipient
    · simp [hself]
    · rcases eq_or_ne p link.sender with rfl | hp
      · simp [hself, totalDataBy]
      · simp [hself, totalDataBy, hp]
  | start | stop | receiveData | output | protocolBegin | protocolEnd => split_ifs <;> rfl

variable {calls : List (PartyId × Event)}

theorem after_concat : after (calls ++ [call]) = (after calls).triggered call := by
  rw [after, List.foldl_append]
  rfl

theorem after_totalDataBy (hsender : ∀ c ∈ calls, OwnSend c) (p : PartyId) :
    ((after calls).totalDataBy p).getD 0 =
      bytesOf (((calls.filter fun c => c.1 = p).map Prod.snd).filterMap Event.mark) := by
  induction calls using List.reverseRecOn with
  | nil => rfl
  | append_singleton calls call ih =>
    obtain ⟨hcalls, hcall⟩ := List.forall_mem_append.mp hsender
    rw [after_concat, triggered_totalDataBy _ _ (hcall call (List.mem_singleton_self _)), ih hcalls,
      List.filter_append, List.map_append, List.filterMap_append, bytesOf_append]
    congr 1
    by_cases hp : call.1 = p
    · subst hp
      cases hmark : call.2.mark <;> simp [hmark, Event.bytes]
    · simp [hp, Ne.symm hp]

theorem after_totalData {parties : List PartyId} (hnodup : parties.Nodup)
    (hsender : ∀ c ∈ calls, OwnSend c) (hknown : ∀ c ∈ calls, c.1 ∈ parties) :
    (parties.map fun p => ((after calls).totalDataBy p).getD 0).sum = (after calls).totalData := by
  rw [← List.sum_toFinset _ hnodup]
  induction calls using List.reverseRecOn with
  | nil => simp [after, new, totalDataBy]
  | append_singleton calls call ih =>
    obtain ⟨hcalls, hcall⟩ := List.forall_mem_append.mp hsender
    obtain ⟨hparties, hparty⟩ := List.forall_mem_append.mp hknown
    have hstep := triggered_totalDataBy (after calls) call (hcall call (List.mem_singleton_self _))
    have hmem : call.1 ∈ parties.toFinset :=
      List.mem_toFinset.mpr (hparty call (List.mem_singleton_self _))
    simp only [after_concat, hstep, Finset.sum_add_distrib, ih hcalls hparties, triggered_totalData,
      Finset.sum_ite_eq', hmem, if_true]

end MetricHook

/-! ### The outcome of a simulation -/

/-- The `SimulationError` that is modelled. -/
inductive SimulationError
  | partyNotFound (party : PartyId)

/-- `bandwidth_tree_for`; a party without a trace has the empty one. -/
def bandwidthTreeFor (traces : PartyId → List Event) (party : PartyId) :
    Except SimulationError ProtocolBandwidthTree :=
  match traces party with
  | [] => .error (.partyNotFound party)
  | event :: events => .ok (ProtocolBandwidthTree.parse "<simulation>" (event :: events)).1

/-- **The tree of a trace that has the marks of one invocation.** -/
theorem bandwidthTreeFor_eq {traces : PartyId → List Event} {party : PartyId} {id : ProtocolId}
    {inv : Invocation} (h : (traces party).filterMap Event.mark =
      .begins id :: (inv.marks party ++ [.ends id])) :
    bandwidthTreeFor traces party = .ok ⟨"<simulation>", 0, [inv.tree party id]⟩ := by
  have hwhole : (Invocation.call id inv .done).marks party =
      .begins id :: (inv.marks party ++ [.ends id]) := Invocation.marks_call party id inv .done
  rw [← hwhole, ← List.append_nil ((Invocation.call id inv .done).marks party)] at h
  obtain ⟨rest, hrest, hparse⟩ := ProtocolBandwidthTree.parse_invocation party _ h
  have htree : (ProtocolBandwidthTree.parse "<simulation>" (traces party)).1 =
      ⟨"<simulation>", 0, [inv.tree party id]⟩ :=
    (congrArg Prod.fst (hparse _)).trans (ProtocolBandwidthTree.parseFrom_of_unmarked _ hrest)
  rw [bandwidthTreeFor]
  cases htrace : traces party with
  | nil =>
    rw [htrace, hwhole] at h
    cases h
  | cons event events =>
    rw [htrace] at htree
    exact congrArg Except.ok htree

end SclRs
