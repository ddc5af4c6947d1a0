import SclRs.Net.Network

/-!
# Invocations of protocols

What a party's code did is a log of operations with what they resolved to. In code that runs protocols
through `execute` alone the log is that of a call tree: the operations of an invocation lie between its
begin and end markers, and the protocols that it executed lie among them (`Code.does_of_runs`). The code
and the log determine the tree (`Code.Does.unique`).
-/

namespace SclRs

/-- An operation with what it resolved to. -/
structure Performed where
  op : NetOp
  out : op.Out

namespace Prog

variable {α β : Type}

/-- The code is `rest` after the operations of the log. -/
inductive Runs : Prog α → List Performed → Prog α → Prop
  | nil {prog : Prog α} : Runs prog [] prog
  | cons {op : NetOp} {next : op.Out → Prog α} {out : op.Out} {log : List Performed} {rest : Prog α} :
      Runs (next out) log rest → Runs (.call op next) (⟨op, out⟩ :: log) rest

theorem Runs.snoc {prog : Prog α} {log : List Performed} {op : NetOp} {next : op.Out → Prog α}
    (h : Runs prog log (.call op next)) (out : op.Out) : Runs prog (log ++ [⟨op, out⟩]) (next out) := by
  generalize hrest : Prog.call op next = rest at h
  induction h with
  | nil =>
    subst hrest
    exact .cons .nil
  | cons _ ih => exact .cons (ih hrest)

theorem runs_call {op : NetOp} {next : op.Out → Prog α} {log : List Performed} {result : α}
    (h : Runs (.call op next) log (.ret result)) :
    ∃ out rest, log = ⟨op, out⟩ :: rest ∧ Runs (next out) rest (.ret result) := by
  cases h with
  | cons h => exact ⟨_, _, rfl, h⟩

theorem runs_ret {a result : α} {log : List Performed} (h : Runs (.ret a) log (.ret result)) :
    log = [] ∧ a = result := by
  cases h
  exact ⟨rfl, rfl⟩

theorem not_runs_panic {log : List Performed} {result : α} : ¬ Runs .panic log (.ret result) := nofun

end Prog

def NetOp.isRecord : NetOp → Bool
  | record _ => true
  | _ => false

/-- Code of a protocol: what it does between its markers. The protocols that it runs it executes, with
their results, errors or not, at its disposal; it sets no markers itself. -/
inductive Code : Type → Type 1
  | ret {α : Type} (result : α) : Code α
  | panic {α : Type} : Code α
  | call {α : Type} (op : NetOp) (hop : op.isRecord = false) (next : op.Out → Code α) : Code α
  | execute {α β : Type} (id : ProtocolId) (run : Code β) (next : β → Code α) : Code α

/-- The code that a backend runs. -/
def Code.prog {α : Type} : Code α → Prog α
  | ret result => .ret result
  | panic => .panic
  | call op _ next => .call op fun out => (next out).prog
  | execute id run next => Prog.execute id run.prog >>= fun output => (next output).prog

/-- What an invocation did, in order: its operations, and the invocations that it made. -/
inductive Invocation
  | done
  | op (performed : Performed) (hop : performed.op.isRecord = false) (rest : Invocation)
  | call (id : ProtocolId) (callee rest : Invocation)

/-- The operations of an invocation, with the markers of those that it made. -/
def Invocation.log : Invocation → List Performed
  | done => []
  | op performed _ rest => performed :: rest.log
  | call id callee rest =>
    ⟨.record (.protocolBegin id), ()⟩ :: (callee.log ++ ⟨.record (.protocolEnd id), ()⟩ :: rest.log)

namespace Code

/-- The code does what is listed, with the given result. -/
inductive Does : {α : Type} → Code α → Invocation → α → Prop
  | ret {α : Type} {result : α} : Does (.ret result) .done result
  | call {α : Type} {op : NetOp} {hop : op.isRecord = false} {next : op.Out → Code α} {out : op.Out}
      {rest : Invocation} {result : α} :
      Does (next out) rest result → Does (.call op hop next) (.op ⟨op, out⟩ hop rest) result
  | execute {α β : Type} {id : ProtocolId} {run : Code β} {next : β → Code α} {callee rest : Invocation}
      {output : β} {result : α} :
      Does run callee output → Does (next output) rest result →
      Does (.execute id run next) (.call id callee rest) result

/-- **A log is that of a call tree.** -/
theorem does_of_runs {α γ : Type} (code : Code α) {k : α → Prog γ} {log : List Performed} {c : γ}
    (h : Prog.Runs (code.prog >>= k) log (.ret c)) :
    ∃ inv a rest, code.Does inv a ∧ log = inv.log ++ rest ∧ Prog.Runs (k a) rest (.ret c) := by
  induction code generalizing γ log c with
  | ret a => exact ⟨.done, a, log, .ret, rfl, h⟩
  | panic => exact absurd h Prog.not_runs_panic
  | call op hop next ih =>
    obtain ⟨out, log, rfl, hlog⟩ := Prog.runs_call h
    obtain ⟨inv, a, rest, hdoes, rfl, hrest⟩ := ih out hlog
    exact ⟨.op ⟨op, out⟩ hop inv, a, rest, .call hdoes, rfl, hrest⟩
  | execute id run next ihrun ihnext =>
    -- the callee's log ends at the end marker, from which the caller goes on
    rw [prog, Prog.bind_assoc, Prog.execute_bind] at h
    obtain ⟨_, log, rfl, hrun⟩ := Prog.runs_call h
    obtain ⟨callee, output, log, hcallee, rfl, hend⟩ := ihrun hrun
    obtain ⟨_, log, rfl, hnext⟩ := Prog.runs_call hend
    obtain ⟨inv, a, rest, hdoes, rfl, hrest⟩ := ihnext output hnext
    refine ⟨.call id callee inv, a, rest, .execute hcallee hdoes, ?_, hrest⟩
    simp only [Invocation.log, List.cons_append, List.append_assoc]
    rfl

/-- **The code and the log determine the call tree**, whatever follows in the log. -/
theorem Does.unique {α : Type} {code : Code α} {inv inv' : Invocation} {a a' : α}
    {rest rest' : List Performed} (h : code.Does inv a) (h' : code.Does inv' a')
    (hlog : inv.log ++ rest = inv'.log ++ rest') : inv = inv' ∧ a = a' ∧ rest = rest' := by
  induction h generalizing inv' rest rest' with
  | ret =>
    cases h'
    exact ⟨rfl, rfl, hlog⟩
  | call _ ih =>
    cases h' with
    | call h' =>
      obtain ⟨hhead, htail⟩ := List.cons.inj hlog
      cases hhead
      obtain ⟨rfl, hrest⟩ := ih h' htail
      exact ⟨rfl, hrest⟩
  | execute _ _ ihrun ihnext =>
    cases h' with
    | execute hrun hnext =>
      simp only [Invocation.log, List.cons_append, List.append_assoc] at hlog
      obtain ⟨rfl, rfl, hlog⟩ := ihrun hrun (List.cons.inj hlog).2
      obtain ⟨rfl, hrest⟩ := ihnext hnext (List.cons.inj hlog).2
      exact ⟨rfl, hrest⟩

end Code

end SclRs
