import Zeitpeer.Net.Conservation

/-!
# Probes over time

Entries are stamped with past instants, a probe expires strictly after its timeout, and what a
task has taken out of the pending map stays with it until it is recorded. Together these place
a probe at the moment a response to it is looked up.
-/

namespace Zeitpeer

open Framework Machine

variable {parse : String → UInt16 → Option SocketAddr} {cfg : Config}

/-- Entries are stamped with past instants, and only overdue requests expire. -/
structure Clocked (es : List Event) (s : NodeState) : Prop where
  inserted : ∀ t ∈ tally Event.inserted? es, t.2.sentAt ≤ s.now
  sweeping : ∀ n, s.tx = .sweeping n → n ≤ s.now
  expired : ∀ t ∈ s.tx.inHand + tally Event.timedOut? es, t.2.sentAt + responseTimeout < s.now

theorem NodeStep.now_le {s s' : NodeState} {a : Action} {es : List Event}
    (hstep : NodeStep parse cfg s a s' es) : s.now ≤ s'.now := by
  cases hstep with
  | advance d => exact Nat.le_add_right _ _
  | _ => exact Nat.le_refl _

theorem run_now_le {ts : List NodeTurn} {s s' : NodeState}
    (hrun : (node parse cfg).Run s ts s') : s.now ≤ s'.now :=
  hrun.monotone (R := fun s s' => s.now ≤ s'.now) (fun _ => Nat.le_refl _) Nat.le_trans
    fun _ _ _ _ hstep => (NodeStep.of_step hstep).now_le

private theorem clocked_quiet {es fs : List Event} {s s' : NodeState} (h : Clocked es s)
    (hnow : s.now ≤ s'.now) (hins : ∀ t ∈ tally Event.inserted? fs, t.2.sentAt ≤ s'.now)
    (hsweep : ∀ n, s'.tx = .sweeping n → n ≤ s'.now)
    (hhand : ∀ t ∈ s'.tx.inHand + tally Event.timedOut? fs,
      t ∈ s.tx.inHand ∨ t.2.sentAt + responseTimeout < s'.now) :
    Clocked (es ++ fs) s' := by
  refine ⟨?_, hsweep, ?_⟩
  · intro t ht
    rw [tally_append, Multiset.mem_add] at ht
    rcases ht with ht | ht
    · exact (h.inserted t ht).trans hnow
    · exact hins t ht
  · intro t ht
    have hold : ∀ u ∈ s.tx.inHand + tally Event.timedOut? es,
        u.2.sentAt + responseTimeout < s'.now := fun u hu =>
      Nat.lt_of_lt_of_le (h.expired u hu) hnow
    rw [tally_append, Multiset.mem_add, Multiset.mem_add] at ht
    have hcases : t ∈ tally Event.timedOut? es ∨ t ∈ s'.tx.inHand + tally Event.timedOut? fs := by
      rw [Multiset.mem_add]
      tauto
    rcases hcases with ht | ht
    · exact hold t (Multiset.mem_add.mpr (.inr ht))
    · rcases hhand t ht with ht | ht
      · exact hold t (Multiset.mem_add.mpr (.inl ht))
      · exact ht

private theorem no_tokens (f : Event → Option Token) {es : List Event} (h : tally f es = 0)
    {P : Token → Prop} : ∀ t ∈ tally f es, P t := by
  intro t ht
  rw [h] at ht
  exact absurd ht (Multiset.notMem_zero t)

private theorem NodeStep.clocked {es fs : List Event} {s s' : NodeState} {a : Action}
    (hstep : NodeStep parse cfg s a s' fs) (h : Clocked es s) : Clocked (es ++ fs) s' := by
  have hnow := hstep.now_le
  cases hstep with
  | insert htx
  | overwrite htx =>
    refine clocked_quiet h hnow ?_ (by simp) (no_tokens _ rfl)
    intro t ht
    obtain rfl := Multiset.mem_singleton.mp ht
    exact Nat.le_refl _
  | cleanup htx =>
    refine clocked_quiet h hnow (no_tokens _ rfl) ?_ (no_tokens _ rfl)
    intro n hn
    obtain rfl := TxTask.sweeping.inj hn
    exact Nat.le_refl _
  | @sweep now expired htx hperm =>
    refine clocked_quiet h hnow (no_tokens _ rfl) (by cases expired <;> simp) ?_
    intro t ht
    rw [expiring_inHand, tally_nil, add_zero, Multiset.mem_coe, hperm.mem_iff,
      Table.mem_evicted] at ht
    have hpast := h.sweeping now htx
    have hkeep := ht.2
    simp only [keepPending, Bool.not_eq_false', decide_eq_true_eq] at hkeep
    exact .inr (Nat.lt_of_lt_of_le (Nat.add_lt_of_lt_sub' hkeep) hpast)
  | @expire u rest sys htx =>
    refine clocked_quiet h hnow (no_tokens _ rfl) (by cases rest <;> simp) ?_
    intro t ht
    left
    rw [expiring_inHand, Multiset.mem_add, Multiset.mem_coe] at ht
    rw [htx]
    change t ∈ ((u :: rest : List Token) : Multiset Token)
    rcases ht with ht | ht
    · exact Multiset.mem_coe.mpr (List.mem_cons_of_mem u ht)
    · obtain rfl := Multiset.mem_singleton.mp ht
      exact Multiset.mem_coe.mpr List.mem_cons_self
  | tickIdle htx
  | tick htx
  | drawFailed htx
  | drew _ htx
  | sendFailed htx
  | sent htx =>
    exact clocked_quiet h hnow (no_tokens _ rfl) (by simp) (no_tokens _ rfl)
  | advance d =>
    refine clocked_quiet h hnow (no_tokens _ rfl) ?_ ?_
    · exact fun n hn => (h.sweeping n hn).trans hnow
    · exact fun t ht => .inl (by simpa using ht)
  | @store e w rest hrx =>
    refine clocked_quiet h hnow (no_tokens _ rfl) h.sweeping ?_
    have hnone : tally Event.timedOut? [Event.tsAdd w (.reply e)] = 0 := by
      rw [tally_cons, Event.timedOut?, timeoutOf_reply]
      rfl
    rw [hnone, add_zero]
    exact fun t ht => .inl ht
  | _ =>
    refine clocked_quiet h hnow (no_tokens _ rfl) h.sweeping ?_
    intro t ht
    rcases Multiset.mem_add.mp ht with ht | ht
    · exact .inl ht
    · exact absurd ht (Multiset.notMem_zero t)

theorem run_clocked {ts : List NodeTurn} {s : NodeState} (hrun : (node parse cfg).Run {} ts s) :
    Clocked (events ts) s := by
  refine hrun.invariant (I := fun ts s => Clocked (events ts) s) ⟨?_, ?_, ?_⟩ ?_
  · exact no_tokens _ rfl
  · simp
  · exact no_tokens Event.timedOut? (tally_nil _)
  · intro ts s a s' es _ h hstep
    rw [events_append, events_singleton]
    exact (NodeStep.of_step hstep).clocked h

private theorem NodeStep.keeps {s s' : NodeState} {a : Action} {es : List Event}
    (hstep : NodeStep parse cfg s a s' es) :
    s.tx.inHand ≤ s'.tx.inHand + tally Event.timedOut? es ∧
      s.rx.inHand ≤ s'.rx.inHand + tally Event.sampled? es := by
  cases hstep with
  | @expire t rest sys htx =>
    refine ⟨?_, Multiset.le_add_right _ _⟩
    have hone : tally Event.timedOut? [Event.tsAdd (timeoutWrite cfg t.2 sys) (.expiry t)] =
        {t} := rfl
    have hhand : s.tx.inHand = (rest : Multiset Token) + {t} := by
      rw [htx, TxTask.inHand, ← Multiset.cons_coe, ← Multiset.singleton_add, add_comm]
    rw [expiring_inHand, hhand, hone]
  | @store e w rest hrx =>
    refine ⟨Multiset.le_add_right _ _, ?_⟩
    have hone : tally Event.sampled? [Event.tsAdd w (.reply e)] =
        ((sampleOf w (.reply e)).toList : Multiset Token) := by
      rw [tally_cons, tally_nil, add_zero]
      rfl
    rw [hrx, storing_inHand, RxTask.inHand, hone]
    cases hsample : sampleOf w (.reply e) with
    | none => simp [hsample]
    | some t =>
      simp only [List.filterMap_cons, hsample, Option.toList_some, Multiset.coe_singleton]
      rw [← Multiset.cons_coe, ← Multiset.singleton_add, add_comm]
  | runtime hrx =>
    refine ⟨Multiset.le_add_right _ _, ?_⟩
    rw [hrx, sampleWrites_inHand]
    exact le_rfl
  | tickIdle htx
  | tick htx
  | drawFailed htx
  | drew _ htx
  | sendFailed htx
  | sent htx
  | insert htx
  | overwrite htx
  | cleanup htx
  | sweep htx =>
    refine ⟨?_, Multiset.le_add_right _ _⟩
    rw [htx]
    exact Multiset.zero_le _
  | recvRequest hrx
  | recvResponse hrx
  | readT2 _ _ hrx
  | readT3 _ _ hrx
  | reply hrx
  | replyFailed hrx
  | latency _ hrx
  | readT4 _ _ hrx
  | orphan hrx
  | mismatch hrx
  | «match» hrx =>
    refine ⟨Multiset.le_add_right _ _, ?_⟩
    rw [hrx]
    exact Multiset.zero_le _
  | advance
  | recvDrop => exact ⟨Multiset.le_add_right _ _, Multiset.le_add_right _ _⟩

/-- Along a run from any state a probe in hand, or recorded before, is in hand or recorded. -/
theorem run_keeps (es : List Event) {start s : NodeState} {ts : List NodeTurn}
    (hrun : (node parse cfg).Run start ts s) :
    start.tx.inHand + tally Event.timedOut? es ≤
        s.tx.inHand + tally Event.timedOut? (es ++ events ts) ∧
      start.rx.inHand + tally Event.sampled? es ≤
        s.rx.inHand + tally Event.sampled? (es ++ events ts) := by
  refine hrun.invariant (I := fun ts s =>
    start.tx.inHand + tally Event.timedOut? es ≤
        s.tx.inHand + tally Event.timedOut? (es ++ events ts) ∧
      start.rx.inHand + tally Event.sampled? es ≤
        s.rx.inHand + tally Event.sampled? (es ++ events ts)) (by simp) ?_
  intro ts s a s' fs _ hbefore hstep
  have hkeeps := (NodeStep.of_step hstep).keeps
  rw [events_append, events_singleton, ← List.append_assoc, tally_append _ (es ++ events ts),
    tally_append _ (es ++ events ts)]
  constructor
  · refine hbefore.1.trans ?_
    rw [add_comm (tally _ (es ++ events ts)), ← add_assoc]
    exact add_le_add_left hkeeps.1 _
  · refine hbefore.2.trans ?_
    rw [add_comm (tally _ (es ++ events ts)), ← add_assoc]
    exact add_le_add_left hkeeps.2 _

/-- While numbers are fresh, a probe that entered the map is in it, in hand, recorded, or was
taken by a response from another server. -/
theorem place_of_inserted {ts : List NodeTurn} {s : NodeState} {t : Token}
    (hrun : (node parse cfg).Run {} ts s) (hfew : (drawn (events ts)).length < 2 ^ 32)
    (ht : t ∈ tally Event.inserted? (events ts)) :
    s.pending.lookup t.1 = some t.2 ∨
      t ∈ s.tx.inHand + tally Event.timedOut? (events ts) ∨
      t ∈ s.rx.inHand + tally Event.sampled? (events ts) ∨
      ∃ resp, .mismatched t resp ∈ events ts := by
  have hlost : t ∈ tally Event.lost? (events ts) → ∃ resp, .mismatched t resp ∈ events ts := by
    intro h
    obtain ⟨e, he, hread⟩ := mem_tally.mp h
    cases e with
    | displaced u =>
      obtain rfl := Option.some.inj hread
      exact absurd he (no_displaced hrun hfew u)
    | mismatched u resp =>
      obtain rfl := Option.some.inj hread
      exact ⟨resp, he⟩
    | _ => contradiction
  rw [run_balance hrun] at ht
  simp only [NodeState.held, Multiset.mem_add] at ht ⊢
  rcases ht with ((((hp | htx) | hrx) | hsam) | htim) | hout
  · exact .inl (Table.mem_contents.mp hp)
  · exact .inr (.inl (.inl htx))
  · exact .inr (.inr (.inl (.inl hrx)))
  · exact .inr (.inr (.inl (.inr hsam)))
  · exact .inr (.inl (.inr htim))
  · exact .inr (.inr (.inr (hlost hout)))

/-- A probe on its way to one outcome is not on its way to another. -/
theorem nodup_outcomes {ts : List NodeTurn} {s : NodeState} (hrun : (node parse cfg).Run {} ts s)
    (hfew : (drawn (events ts)).length < 2 ^ 32) :
    ((s.tx.inHand + tally Event.timedOut? (events ts)) +
      (s.rx.inHand + tally Event.sampled? (events ts)) +
      tally Event.lost? (events ts)).Nodup := by
  have htokens := nodup_tokens hrun hfew
  have hsplit : s.held + tally Event.sampled? (events ts) + tally Event.timedOut? (events ts) +
      tally Event.lost? (events ts) =
      (s.tx.inHand + tally Event.timedOut? (events ts) +
        (s.rx.inHand + tally Event.sampled? (events ts)) + tally Event.lost? (events ts)) +
        Table.contents s.pending := by
    rw [NodeState.held]
    abel
  rw [hsplit] at htokens
  exact Multiset.nodup_of_le (Multiset.le_add_right _ _) htokens

theorem not_timedOut_of_sampled {ts : List NodeTurn} {s : NodeState} {t : Token}
    (hrun : (node parse cfg).Run {} ts s) (hfew : (drawn (events ts)).length < 2 ^ 32)
    (ht : t ∈ s.rx.inHand + tally Event.sampled? (events ts)) :
    t ∉ s.tx.inHand + tally Event.timedOut? (events ts) := by
  intro htim
  have hboth := (Multiset.nodup_add.mp (nodup_outcomes hrun hfew)).1
  exact Multiset.disjoint_left.mp (Multiset.nodup_add.mp hboth).2.2 htim ht

theorem not_settled_of_mismatched {ts : List NodeTurn} {s : NodeState} {t : Token}
    {resp : TimeResponse} (hrun : (node parse cfg).Run {} ts s)
    (hfew : (drawn (events ts)).length < 2 ^ 32) (ht : .mismatched t resp ∈ events ts) :
    t ∉ s.tx.inHand + tally Event.timedOut? (events ts) ∧
      t ∉ s.rx.inHand + tally Event.sampled? (events ts) := by
  have hlost : t ∈ tally Event.lost? (events ts) := mem_tally.mpr ⟨_, ht, rfl⟩
  have hdisjoint := (Multiset.nodup_add.mp (nodup_outcomes hrun hfew)).2.2
  constructor
  · intro htim
    exact Multiset.disjoint_left.mp hdisjoint (Multiset.mem_add.mpr (.inl htim)) hlost
  · intro hsam
    exact Multiset.disjoint_left.mp hdisjoint (Multiset.mem_add.mpr (.inr hsam)) hlost

/-- A turn in which `send_to` hands a probe's request to the network. -/
def Sends (t : NodeTurn) (probe : Probe) : Prop :=
  ∃ todo, t.action = .txSend true ∧ t.before.tx = .sending probe todo

/-- A turn in which `handle_response` looks a response up. -/
def LooksUp (t : NodeTurn) (resp : TimeResponse) : Prop :=
  ∃ src t4, t.action = .rxTake ∧ t.before.rx = .responseStamped src resp t4

private theorem NodeStep.sent_cases {s s' : NodeState} {a : Action} {es : List Event}
    {probe : Probe}
    {todo : List Target} (hstep : NodeStep parse cfg s a s' es) (htx : s.tx = .sent probe todo) :
    s'.tx = .sent probe todo ∨
      (⟨probe.seq, probe.pending s.now⟩ : Token) ∈ tally Event.inserted? es := by
  cases hstep with
  | insert htx'
  | overwrite htx' =>
    rw [htx] at htx'
    obtain ⟨rfl, rfl⟩ := TxTask.sent.inj htx'
    exact .inr (Multiset.mem_singleton_self _)
  | tickIdle htx'
  | tick htx'
  | drawFailed htx'
  | drew _ htx'
  | sendFailed htx'
  | sent htx'
  | cleanup htx'
  | sweep htx'
  | expire _ htx' =>
    rw [htx] at htx'
    contradiction
  | _ => exact .inl htx

/-- After a send the probe is either still ahead of the map or entered it later than the send. -/
theorem run_sent {start s : NodeState} {ts : List NodeTurn} {probe : Probe} {todo : List Target}
    (hstart : start.tx = .sent probe todo) (hrun : (node parse cfg).Run start ts s) :
    s.tx = .sent probe todo ∨ ∃ n, start.now ≤ n ∧
      (⟨probe.seq, probe.pending n⟩ : Token) ∈ tally Event.inserted? (events ts) := by
  refine hrun.invariant (I := fun ts s => s.tx = .sent probe todo ∨ ∃ n, start.now ≤ n ∧
    (⟨probe.seq, probe.pending n⟩ : Token) ∈ tally Event.inserted? (events ts)) (.inl hstart) ?_
  intro ts s a s' es hbefore hi hstep
  rw [events_append, events_singleton, tally_append]
  rcases hi with htx | ⟨n, hn, hin⟩
  · rcases (NodeStep.of_step hstep).sent_cases htx with htx' | hin
    · exact .inl htx'
    · exact .inr ⟨s.now, run_now_le hbefore, Multiset.mem_add.mpr (.inr hin)⟩
  · exact .inr ⟨n, hn, Multiset.mem_add.mpr (.inl hin)⟩

theorem LooksUp.inHand {u : NodeTurn} {resp : TimeResponse} (h : LooksUp u resp) :
    u.before.rx.inHand = 0 := by
  obtain ⟨_, _, _, hrx⟩ := h
  rw [hrx]
  rfl

/-- What looking a response up can lead to. -/
theorem LooksUp.after {u : NodeTurn} {resp : TimeResponse} (h : LooksUp u resp)
    (hstep : (node parse cfg).step u.before u.action = some (u.after, u.emitted)) :
    (u.after.rx = .listening ∧ ∀ req, u.before.pending.lookup resp.header.seq = some req →
        req.peerId ≠ resp.serverId) ∨
      ∃ src t4 req, u.before.pending.lookup resp.header.seq = some req ∧
        req.peerId = resp.serverId ∧ u.after.rx = .matched { src, resp, t4, req } := by
  obtain ⟨src, t4, haction, hrx⟩ := h
  rw [haction] at hstep
  have hcases := NodeStep.of_step hstep
  generalize u.after = s', u.emitted = es at hcases ⊢
  cases hcases with
  | orphan hrx' hnone =>
    rw [hrx] at hrx'
    obtain ⟨rfl, rfl, rfl⟩ := RxTask.responseStamped.inj hrx'
    refine .inl ⟨rfl, fun req hsome => ?_⟩
    rw [hnone] at hsome
    contradiction
  | mismatch hrx' hsome hid =>
    rw [hrx] at hrx'
    obtain ⟨rfl, rfl, rfl⟩ := RxTask.responseStamped.inj hrx'
    refine .inl ⟨rfl, fun req hsome' => ?_⟩
    rw [hsome] at hsome'
    exact Option.some.inj hsome' ▸ hid
  | «match» hrx' hsome hid =>
    rw [hrx] at hrx'
    obtain ⟨rfl, rfl, rfl⟩ := RxTask.responseStamped.inj hrx'
    exact .inr ⟨_, _, _, hsome, hid, rfl⟩

theorem inserted_of_settled {ts : List NodeTurn} {s : NodeState} {t : Token}
    (hrun : (node parse cfg).Run {} ts s)
    (ht : t ∈ s.tx.inHand + tally Event.timedOut? (events ts) ∨
      t ∈ s.rx.inHand + tally Event.sampled? (events ts) ∨
      ∃ resp, .mismatched t resp ∈ events ts) : t ∈ tally Event.inserted? (events ts) := by
  have hlost : (∃ resp, .mismatched t resp ∈ events ts) → t ∈ tally Event.lost? (events ts) := by
    rintro ⟨resp, hmem⟩
    exact mem_tally.mpr ⟨_, hmem, rfl⟩
  apply inserted_of_place hrun
  simp only [NodeState.held, Multiset.mem_add] at ht ⊢
  tauto

end Zeitpeer
