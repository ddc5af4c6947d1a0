import SclRs.Lib.Acyclic
import SclRs.Protocol.Share.Deal

/-!
# Taking turns

`InputPhase` of `examples/secure_stats_flamegraph.rs`: every party goes through `party_ids()`, deals its
value when the id is its own, and otherwise receives its share from the party of that id. So a party deals
only after it has heard all those before it in its own list. Party `p` awaits `q` when `q` comes before `p`
in the list of `p`. All parties finish, in every order of delivery, if and only if no party awaits itself
through others (`takesTurns_iff`); those that do wait for each other for ever (`inputNet_circularWait`). Where all
lists are the same no party does (`Agree.acyclic`).
-/

namespace SclRs

open Lib Relation

namespace InputPhase

variable {S V Threshold : Type}

section
variable (threshold : Nat → Threshold) (partyIds : List PartyId) (me : PartyId) (value : V)

/-- The protocol of the turn of `dealer` at party `me`. -/
def deal (dealer : PartyId) : PassiveDealShr S V Threshold :=
  if dealer = me then .ofDealer me value partyIds (threshold partyIds.length) else .receiver dealer

variable [LinearShare S V Threshold] [Abbreviate S] (codec : Postcard S) (checks : Bool) (rng : Nat → V)

def turn (dealer : PartyId) : Proto V S :=
  (deal threshold partyIds me value dealer : PassiveDealShr S V Threshold).execute codec checks rng me

/-- The code of party `me`, where `party_ids()` returns `partyIds`. -/
def execute : Proto V (List S) :=
  Proto.execute "InputPhase" (partyIds.mapM (turn threshold partyIds me value codec checks rng))

end

section
variable [LinearShare S V Threshold] [Abbreviate S] (codec : Postcard S) (checks : Bool)
  (rng : PartyId → Nat → V) (threshold : Nat → Threshold) (value : PartyId → V)
  (order : PartyId → List PartyId)

/-- The parties begin; `order p` is what `party_ids()` returns at party `p`. -/
def inputNet : NetState (Except (ProtocolError V) (List S)) :=
  NetState.init fun p => (execute threshold (order p) p (value p) codec checks (rng p)).run

/-- At party `p`, the turn of `q` is before its own. -/
def Awaits (p q : PartyId) : Prop := [q, p].Sublist (order p)

/-- Party `p` deals the shares `dealt p`. -/
def Deals (dealt : PartyId → PartyId → S) (p : PartyId) : Prop :=
  LinearShare.sharesFromSecret checks (value p) (order p) (threshold (order p).length) (rng p) =
    some (.ok ((order p).map (dealt p)))

end

theorem awaits_of_split {order : PartyId → List PartyId} {p q : PartyId} {before after : List PartyId}
    (hsplit : order p = before ++ p :: after) (hq : q ∈ before) : Awaits order p q := by
  rw [Awaits, hsplit]
  exact (List.singleton_sublist.mpr hq).append (List.singleton_sublist.mpr List.mem_cons_self)

/-! ### Without a circle -/

section
variable (codec : Postcard S) (parties : List PartyId) [Abbreviate S]

/-- Each party deals to each; the packets of party `p` are sent at `time p`. -/
def turnScript (dealt : PartyId → PartyId → S) (time : PartyId → Nat) : Script where
  packets link := if link.sender ∈ parties ∧ link.recipient ∈ parties then
    [Packet.labeled codec (dealt link.sender link.recipient)] else []
  time link _ := time link.sender
  unread _ := 0

end

section
variable [LinearShare S V Threshold] [Abbreviate S] {codec : Postcard S} {checks : Bool}
  {rng : PartyId → Nat → V} {threshold : Nat → Threshold} {value : PartyId → V}
  {order : PartyId → List PartyId} {parties : List PartyId} {dealt : PartyId → PartyId → S}
  {time : PartyId → Nat} {me : PartyId} {σ : Progress}

theorem turnScript_getElem {p q : PartyId} (hp : p ∈ parties) (hq : q ∈ parties) :
    ((turnScript codec parties dealt time).packets ⟨p, q⟩)[0]? = some (Packet.labeled codec (dealt p q)) := by
  simp [turnScript, hp, hq]

theorem turnScript_length {p q : PartyId} : ((turnScript codec parties dealt time).packets ⟨p, q⟩).length =
    if p ∈ parties ∧ q ∈ parties then 1 else 0 := by
  rw [turnScript, apply_ite List.length]
  rfl

theorem turnScript_unread {link : Link} : (turnScript codec parties dealt time).unread link = 0 := rfl

theorem others_leads {partyIds l : List PartyId} {t : Nat} {rng : Nat → V} {value : V} (hnodup : l.Nodup)
    (hme : me ∈ parties) (hl : ∀ d ∈ l, d ∈ parties ∧ d ≠ me ∧ time d < t ∧ σ.received d = 0) (ht : σ.time ≤ t) :
    (l.mapM (turn threshold partyIds me value codec checks rng)).Leads (turnScript codec parties dealt time)
      parties NetState.anyone me σ (· = l.map fun d => dealt d me) (σ.receives l t) := by
  induction l generalizing σ with
  | nil => exact Prog.Leads.wait (Proto.leads_pure rfl) ht
  | cons d l ih =>
    rw [List.nodup_cons] at hnodup
    obtain ⟨hd, hne, hlt, hreceived⟩ := hl d List.mem_cons_self
    have hfirst : (turn threshold partyIds me value codec checks rng d).Leads
        (turnScript codec parties dealt time) parties NetState.anyone me σ (· = dealt d me)
        (σ.receives [d] t) := by
      rw [turn, deal, if_neg hne]
      exact PassiveDealShr.receiver_leads hne hd trivial (by rw [hreceived]; exact turnScript_getElem hd hme) ht hlt
    have hrest := @ih (σ.receives [d] t) hnodup.2 (fun q hq => by
      obtain ⟨hmem, hq', hlt', hreceived'⟩ := hl q (List.mem_cons_of_mem _ hq)
      refine ⟨hmem, hq', hlt', ?_⟩
      have hne' : q ≠ d := ne_of_mem_of_not_mem hq hnodup.1
      rw [Progress.receives_received_of_notMem (List.mem_singleton.not.mpr hne'), hreceived']) le_rfl
    rw [Progress.receives_receives] at hrest
    exact hfirst.mapM_cons (fun d => dealt d me) hrest

theorem own_leads {t : Nat} (hnodup : parties.Nodup) (horder : (order me).Perm parties) (hme : me ∈ parties)
    (hdeals : Deals checks rng threshold value order dealt me) (hsent : ∀ q, σ.sent q = 0)
    (hreceived : σ.received me = 0) (htime : σ.time ≤ time me) (ht : time me < t) :
    (turn threshold (order me) me (value me) codec checks (rng me) me).Leads
      (turnScript codec parties dealt time) parties NetState.anyone me σ (· = dealt me me)
      ((σ.sends (order me)).receives [me] t) := by
  rw [turn, deal, if_pos rfl]
  refine PassiveDealShr.ofDealer_leads hdeals (horder.nodup_iff.mpr hnodup) hme trivial (fun q hq => ?_) ?_
    (htime.trans ht.le) ht
  · rw [hsent]
    exact ⟨turnScript_getElem hme (horder.mem_iff.mp hq), htime⟩
  · rw [hreceived]
    exact turnScript_getElem hme hme

theorem turns_leads {t : Nat} (hnodup : parties.Nodup) (horder : (order me).Perm parties) (hme : me ∈ parties)
    (hdeals : Deals checks rng threshold value order dealt me) (htime : ∀ q, Awaits order me q → time q < time me)
    (ht : ∀ q ∈ parties, time q < t) :
    ((order me).mapM (turn threshold (order me) me (value me) codec checks (rng me))).Leads
      (turnScript codec parties dealt time) parties NetState.anyone me .start
      (· = (order me).map fun d => dealt d me) ((Progress.start.sends (order me)).receives (order me) t) := by
  obtain ⟨before, after, hsplit⟩ := List.append_of_mem (horder.mem_iff.mpr hme)
  have hmem : ∀ d ∈ before ++ me :: after, d ∈ parties := fun d hd => horder.mem_iff.mp (hsplit ▸ hd)
  have hdistinct : (before ++ me :: after).Nodup := hsplit ▸ horder.nodup_iff.mpr hnodup
  obtain ⟨hbefore, hrest, hdisjoint⟩ := List.nodup_append'.mp hdistinct
  obtain ⟨hlast, hafter⟩ := List.nodup_cons.mp hrest
  have hfirst : me ∉ before := fun h => hdisjoint h List.mem_cons_self
  have hcount : ∀ q, before.count q + [me].count q + after.count q = (order me).count q := by
    intro q
    rw [hsplit, List.append_cons, List.count_append, List.count_append]
  have hearlier : (before.mapM (turn threshold (order me) me (value me) codec checks (rng me))).Leads
      (turnScript codec parties dealt time) parties NetState.anyone me .start
      (· = before.map fun d => dealt d me) (Progress.start.receives before (time me)) :=
    others_leads hbefore hme (fun d hd => ⟨hmem d (List.mem_append_left _ hd), fun heq => hfirst (heq ▸ hd),
      htime d (awaits_of_split hsplit hd), rfl⟩) (Nat.zero_le _)
  have hown : (turn threshold (order me) me (value me) codec checks (rng me) me).Leads
      (turnScript codec parties dealt time) parties NetState.anyone me
      (Progress.start.receives before (time me)) (· = dealt me me)
      (((Progress.start.receives before (time me)).sends (order me)).receives [me] t) :=
    own_leads hnodup horder hme hdeals (fun _ => rfl) (Progress.receives_received_of_notMem hfirst _) le_rfl
      (ht me hme)
  have hlater : (after.mapM (turn threshold (order me) me (value me) codec checks (rng me))).Leads
      (turnScript codec parties dealt time) parties NetState.anyone me
      (((Progress.start.receives before (time me)).sends (order me)).receives [me] t)
      (· = after.map fun d => dealt d me) ((Progress.start.sends (order me)).receives (order me) t) := by
    have hend : (((Progress.start.receives before (time me)).sends (order me)).receives [me] t).receives after
        t = (Progress.start.sends (order me)).receives (order me) t := by
      simp only [Progress.receives, Progress.sends, Progress.start, Nat.zero_add, hcount]
    rw [← hend]
    refine others_leads hafter hme (fun d hd => ?_) le_rfl
    have hne : d ≠ me := fun heq => hlast (heq ▸ hd)
    have hd' : d ∈ parties := hmem d (List.mem_append_right _ (List.mem_cons_of_mem _ hd))
    refine ⟨hd', hne, ht d hd', ?_⟩
    have hnot : d ∉ before := fun h => hdisjoint h (List.mem_cons_of_mem _ hd)
    rw [Progress.receives_received_of_notMem (List.mem_singleton.not.mpr hne), Progress.sends_received,
      Progress.receives_received_of_notMem hnot]
    rfl
  have hturns := hearlier.mapM_append (hown.mapM_cons (fun d => dealt d me) hlater)
  rwa [← hsplit] at hturns

/-- **Without a circle a party keeps to the script** in which all send at their rank. -/
theorem execute_follows (hnodup : parties.Nodup) (horder : ∀ p ∈ parties, (order p).Perm parties)
    (hacyclic : ∀ p ∈ parties, ¬ TransGen (Awaits order) p p) (hme : me ∈ parties)
    (hdeals : Deals checks rng threshold value order dealt me) :
    (execute threshold (order me) me (value me) codec checks (rng me)).run.Follows
      (turnScript codec parties dealt (Acyclic.rank (Awaits order) parties.toFinset)) parties NetState.anyone me
      (· = .ok ((order me).map fun d => dealt d me)) (fun _ => 0) (fun _ => 0) 0 := by
  have htime : ∀ q, Awaits order me q → Acyclic.rank (Awaits order) parties.toFinset q <
      Acyclic.rank (Awaits order) parties.toFinset me := by
    intro q hawaits
    have hq : q ∈ parties := (horder me hme).mem_iff.mp (hawaits.subset List.mem_cons_self)
    exact Acyclic.rank_lt hawaits (List.mem_toFinset.mpr hq) (hacyclic q hq)
  have hcount : ∀ q, (order me).count q = if q ∈ parties then 1 else 0 :=
    fun q => ((horder me hme).count_eq q).trans hnodup.count
  have ht : ∀ q ∈ parties, Acyclic.rank (Awaits order) parties.toFinset q < parties.toFinset.card + 1 :=
    fun q _ => Nat.lt_succ_of_le (Acyclic.rank_le_card q)
  refine (turns_leads hnodup (horder me hme) hme hdeals htime ht).execute.follows (fun q => ?_) fun q => ?_
  · simp [Progress.start, hcount, turnScript_length, hme]
  · simp [Progress.start, hcount, turnScript_length, turnScript_unread, hme]

/-- **Without a circle all finish**: a party deals when those that it awaits have dealt. -/
theorem finishes_of_acyclic (hnodup : parties.Nodup) (horder : ∀ p ∈ parties, (order p).Perm parties)
    (hdeals : ∀ p ∈ parties, Deals checks rng threshold value order dealt p)
    (hacyclic : ∀ p ∈ parties, ¬ TransGen (Awaits order) p p) :
    (inputNet codec checks rng threshold value order).Finishes parties
      fun p => .ok ((order p).map fun d => dealt d p) :=
  NetState.finishes_of_follows fun p hp => execute_follows hnodup horder hacyclic hp (hdeals p hp)

end

/-! ### In a circle -/

section
variable [LinearShare S V Threshold] [Abbreviate S] {codec : Postcard S} {checks : Bool} {rng : Nat → V}
  {threshold : Nat → Threshold} {value : V} {partyIds : List PartyId} {me : PartyId} {group : PartyId → Prop}

variable (codec) in
/-- The packet holds a share. -/
def HoldsShare (packet : Packet) : Prop := ∃ share : S, packet.pop codec = .ok share

theorem scatter_onlySends (info : Option (DealerInfo S V Threshold)) :
    (PassiveDealShr.scatter codec checks rng info).run.OnlySends (HoldsShare codec) := by
  cases info with
  | none => exact .ret _
  | some info =>
    refine Proto.onlySends_bind ?_ fun shares => Proto.onlySends_bind ?_ fun shares => Proto.onlySends_network ?_
    · cases LinearShare.sharesFromSecret (S := S) checks info.secret info.receivers info.threshold rng with
      | none => exact .panic
      | some shares => exact .ret _
    · cases shares <;> exact .ret _
    · refine Prog.onlySends_sendMany fun message hmessage => ?_
      obtain ⟨⟨recv, share⟩, -, rfl⟩ := List.mem_map.mp hmessage
      exact ⟨share, Packet.pop_labeled codec share⟩

theorem execute_onlySends :
    (execute threshold partyIds me value codec checks rng).run.OnlySends (HoldsShare codec) := by
  refine Prog.OnlySends.execute (Proto.onlySends_mapM (fun dealer => Prog.OnlySends.execute ?_) partyIds)
  have hrecv : ∀ d, (do
      let pkt ← Proto.network (Prog.op (.recvFrom d))
      Proto.ofNetwork (pkt.pop codec) : Proto V S).run.OnlySends (HoldsShare codec) := fun d =>
    Proto.onlySends_bind (Proto.onlySends_network (.recvFrom fun _ => .ret _)) fun _ => Proto.onlySends_ofNetwork _
  rw [PassiveDealShr.run]
  split_ifs
  · exact Proto.onlySends_bind (scatter_onlySends _) fun _ => hrecv _
  · exact hrecv _

theorem turn_needs {ρ : Type} {dealer : PartyId} {f : Except (ProtocolError V) S → Prog ρ} (hne : dealer ≠ me)
    (h : group dealer ∨ ∀ share, (f (.ok share)).Needs (HoldsShare codec) group) :
    ((turn threshold partyIds me value codec checks rng dealer).run >>= f).Needs (HoldsShare codec) group := by
  have hrun : (PassiveDealShr.receiver dealer : PassiveDealShr S V Threshold).run codec checks rng me = (do
      let pkt ← Proto.network (Prog.op (.recvFrom dealer))
      Proto.ofNetwork (pkt.pop codec)) := if_neg hne
  rw [turn, deal, if_neg hne, PassiveDealShr.execute, hrun]
  change ((Prog.execute _ _) >>= f).Needs _ _
  rw [Prog.execute_bind]
  refine .record ?_
  cases h with
  | inl hgroup => exact .waits hgroup
  | inr h =>
    refine .recvFrom fun packet hpacket => ?_
    obtain ⟨share, hshare⟩ := hpacket
    change ((Proto.ofNetwork (packet.pop codec) : Proto V S).run >>= fun output =>
      Prog.call (.record (.protocolEnd _)) fun _ => f output).Needs _ _
    rw [hshare]
    exact .record (h share)

theorem turns_need {l l' : List PartyId} (hme : me ∉ l) (hgroup : ∃ q ∈ l, group q) :
    ((l ++ l').mapM (turn threshold partyIds me value codec checks rng)).run.Needs (HoldsShare codec) group := by
  induction l with
  | nil =>
    obtain ⟨q, hq, -⟩ := hgroup
    cases hq
  | cons d l ih =>
    rw [List.mem_cons, not_or] at hme
    rw [List.cons_append, List.mapM_cons]
    apply turn_needs (Ne.symm hme.1)
    obtain ⟨q, hq, hgroup⟩ := hgroup
    obtain rfl | hq := List.mem_cons.mp hq
    · exact .inl hgroup
    · exact .inr fun share => (ih hme.2 ⟨q, hq, hgroup⟩).bind _

end

/-! ### All parties -/

section
variable [LinearShare S V Threshold] [Abbreviate S] {codec : Postcard S} {checks : Bool}
  {rng : PartyId → Nat → V} {threshold : Nat → Threshold} {value : PartyId → V}
  {order : PartyId → List PartyId} {parties : List PartyId}

theorem Awaits.split {p q : PartyId} (h : Awaits order p q) (hnodup : (order p).Nodup) :
    ∃ before after, order p = before ++ after ∧ q ∈ before ∧ p ∉ before := by
  obtain ⟨before, after, hsplit, hq, hp⟩ := List.append_sublist_iff.mp (show ([q] ++ [p]).Sublist (order p) from h)
  have hdisjoint := List.disjoint_of_nodup_append (hsplit ▸ hnodup)
  exact ⟨before, after, hsplit, List.singleton_sublist.mp hq,
    fun hmem => hdisjoint hmem (List.singleton_sublist.mp hp)⟩

theorem Awaits.mem {p q : PartyId} (h : Awaits order p q) (horder : (order p).Perm parties) : q ∈ parties :=
  horder.mem_iff.mp (h.subset List.mem_cons_self)

variable (order parties) in
/-- The parties that await themselves. -/
def Circle (p : PartyId) : Prop := p ∈ parties ∧ TransGen (Awaits order) p p

/-- **The parties in a circle** wait for each other. -/
theorem inputNet_circularWait (hnodup : parties.Nodup) (horder : ∀ p ∈ parties, (order p).Perm parties) :
    (inputNet codec checks rng threshold value order).CircularWait parties (HoldsShare codec)
      (Circle order parties) := by
  refine NetState.circularWait_init (fun p hp => ?_) fun p _ => execute_onlySends
  obtain ⟨q, hawaits, hcircle⟩ := Acyclic.exists_next hp.2
  obtain ⟨before, after, hsplit, hq, hme⟩ := hawaits.split ((horder p hp.1).nodup_iff.mpr hnodup)
  have hneeds : ((order p).mapM
      (turn threshold (order p) p (value p) codec checks (rng p))).run.Needs (HoldsShare codec)
      (Circle order parties) := by
    rw [hsplit]
    exact turns_need hme ⟨q, hq, hawaits.mem (horder p hp.1), hcircle⟩
  exact hneeds.execute

/-- **They never end**, in whatever order packets are delivered. -/
theorem exists_call_of_circle (hnodup : parties.Nodup) (horder : ∀ p ∈ parties, (order p).Perm parties)
    {p : PartyId} (hp : p ∈ parties) (hcircle : TransGen (Awaits order) p p) {schedule : List Act}
    {t : NetState (Except (ProtocolError V) (List S))}
    (hrun : (inputNet codec checks rng threshold value order).run parties schedule = some t) :
    ∃ op next, t.progs p = .call op next :=
  (inputNet_circularWait hnodup horder).exists_call hrun ⟨hp, hcircle⟩

variable (checks rng threshold value parties) in
/-- Each party can deal its value to the parties, in whatever order they are listed. -/
def Dealable : Prop :=
  ∀ p ∈ parties, ∀ receivers : List PartyId, receivers.Perm parties → ∃ shares : PartyId → S,
    LinearShare.sharesFromSecret checks (value p) receivers (threshold receivers.length) (rng p) =
      some (.ok (receivers.map shares))

omit [Abbreviate S] in
theorem dealable_of_admits {K : Type} [RingOps V] [CommRing K] [LawfulRing V K] [LawfulLinearShare S]
    (hadmits : ∀ receivers : List PartyId, receivers.Perm parties →
      LawfulLinearShare.Admits (S := S) checks receivers (threshold receivers.length))
    (hvalue : ∀ p, LawfulRing.Valid (value p)) (hrng : ∀ p i, LawfulRing.Valid (rng p i)) :
    Dealable (S := S) checks rng threshold value parties := by
  intro p _ receivers hperm
  obtain ⟨shares, hdeal, -⟩ := LawfulLinearShare.deal (hadmits receivers hperm) (hvalue p) (hrng p)
  exact ⟨shares, hdeal⟩

variable (codec checks rng threshold value order parties) in
/-- All parties finish, in every order of delivery, each with its shares of what the parties dealt. -/
def TakesTurns : Prop :=
  ∃ result : PartyId → List S,
    (inputNet codec checks rng threshold value order).Finishes parties (fun p => .ok (result p)) ∧
    ∀ dealt : PartyId → PartyId → S, (∀ p ∈ parties, Deals checks rng threshold value order dealt p) →
      ∀ p ∈ parties, result p = (order p).map fun d => dealt d p

omit [Abbreviate S] in
theorem Deals.unique {dealt dealt' : PartyId → PartyId → S} {d p : PartyId}
    (h : Deals checks rng threshold value order dealt d) (h' : Deals checks rng threshold value order dealt' d)
    (hp : p ∈ order d) : dealt d p = dealt' d p := by
  have hmap := Except.ok.inj (Option.some.inj (h.symm.trans h'))
  exact List.map_inj_left.mp hmap p hp

theorem TakesTurns.acyclic (h : TakesTurns codec checks rng threshold value order parties)
    (hnodup : parties.Nodup) (horder : ∀ p ∈ parties, (order p).Perm parties) {p : PartyId} (hp : p ∈ parties) :
    ¬ TransGen (Awaits order) p p := by
  intro hcircle
  obtain ⟨result, hfinishes, -⟩ := h
  obtain ⟨schedule, t, hrun, hmax⟩ :=
    NetState.exists_maximal parties (inputNet codec checks rng threshold value order)
  obtain ⟨op, next, hcall⟩ := exists_call_of_circle hnodup horder hp hcircle hrun
  have hret := hfinishes.results schedule t hrun hmax p hp
  rw [hcall] at hret
  cases hret

/-- **All parties finish just when none awaits itself.** -/
theorem takesTurns_iff (hnodup : parties.Nodup)
    (hdealable : Dealable (S := S) checks rng threshold value parties)
    (horder : ∀ p ∈ parties, (order p).Perm parties) :
    TakesTurns codec checks rng threshold value order parties ↔
      ∀ p ∈ parties, ¬ TransGen (Awaits order) p p := by
  constructor
  · exact fun h p hp => h.acyclic hnodup horder hp
  · intro hacyclic
    cases parties with
    | nil => exact ⟨fun _ => [], ⟨fun states _ => NetState.not_forall_steps states, by simp⟩, by simp⟩
    | cons first rest =>
      obtain ⟨shares, -⟩ := hdealable first List.mem_cons_self (first :: rest) (.refl _)
      have : Nonempty (PartyId → S) := ⟨shares⟩
      choose! dealt hdeals using fun p hp => hdealable p hp (order p) (horder p hp)
      refine ⟨_, finishes_of_acyclic hnodup horder hdeals hacyclic, fun dealt' hdeals' p hp => ?_⟩
      refine List.map_congr_left fun d hd => ?_
      have hmem : d ∈ first :: rest := (horder p hp).mem_iff.mp hd
      exact Deals.unique (hdeals d hmem) (hdeals' d hmem) ((horder d hmem).mem_iff.mpr hp)

end

/-! ### One order -/

section
variable {order : PartyId → List PartyId} {parties : List PartyId}

/-- The parties are listed in the same order at all of them. -/
def Agree (order : PartyId → List PartyId) (parties : List PartyId) : Prop :=
  ∀ p ∈ parties, ∀ q ∈ parties, order p = order q

theorem Awaits.idxOf_lt {p q : PartyId} (h : Awaits order p q) (hnodup : (order p).Nodup) :
    (order p).idxOf q < (order p).idxOf p := by
  obtain ⟨before, after, hsplit, hq, hp⟩ := h.split hnodup
  rw [hsplit, List.idxOf_append_of_mem hq, List.idxOf_append_of_notMem hp]
  exact (List.idxOf_lt_length_of_mem hq).trans_le (Nat.le_add_right _ _)

/-- **In one order no party awaits itself.** -/
theorem Agree.acyclic (h : Agree order parties) (hnodup : parties.Nodup)
    (horder : ∀ p ∈ parties, (order p).Perm parties) {p : PartyId} (hp : p ∈ parties) :
    ¬ TransGen (Awaits order) p p := by
  have hearlier : ∀ q, TransGen (Awaits order) p q → q ∈ parties ∧ (order p).idxOf q < (order p).idxOf p := by
    intro q hq
    induction hq with
    | single hawaits =>
      exact ⟨hawaits.mem (horder p hp), hawaits.idxOf_lt ((horder p hp).nodup_iff.mpr hnodup)⟩
    | @tail q r _ hawaits ih =>
      obtain ⟨hq, hlt⟩ := ih
      have hnext := hawaits.idxOf_lt ((horder q hq).nodup_iff.mpr hnodup)
      rw [h q hq p hp] at hnext
      exact ⟨hawaits.mem (horder q hq), hnext.trans hlt⟩
  exact fun hcircle => lt_irrefl _ (hearlier p hcircle).2

end

end InputPhase

end SclRs
