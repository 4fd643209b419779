import Zeitpeer.Net.Ledger

/-!
# Sequence numbers

The counter hands out consecutive numbers from one and wraps at `2 ^ 32`, failed passes
included. While fewer numbers have been drawn they are distinct, so a number names one probe,
and the balance of the ledger becomes a statement about single probes.
-/

namespace Zeitpeer

open Framework Machine

def Event.drew? : Event → Option UInt32
  | .drew seq _ _ => some seq
  | _ => none

/-- The sequence numbers drawn, in order. -/
def drawn (es : List Event) : List UInt32 := es.filterMap Event.drew?

/-- The first `n` numbers of the counter. -/
def seqs (n : Nat) : List UInt32 := (List.range n).map fun i => UInt32.ofNat (i + 1)

/-- The number of a probe that is not in the map yet. -/
def TxTask.ahead : TxTask → Multiset UInt32
  | .sending probe _ => {probe.seq}
  | .sent probe _ => {probe.seq}
  | _ => 0

/-- The numbers under which probes were inserted. -/
def insertedSeqs (es : List Event) : Multiset UInt32 :=
  (tally Event.inserted? es).map Sigma.fst

@[simp] theorem drawn_append (es fs : List Event) : drawn (es ++ fs) = drawn es ++ drawn fs := by
  simp [drawn]

@[simp] theorem insertedSeqs_append (es fs : List Event) :
    insertedSeqs (es ++ fs) = insertedSeqs es + insertedSeqs fs := by
  simp [insertedSeqs]

private theorem seqs_succ (n : Nat) : seqs (n + 1) = seqs n ++ [UInt32.ofNat (n + 1)] := by
  simp [seqs, List.range_succ]

private theorem nodup_seqs {n : Nat} (hn : n < 2 ^ 32) : (seqs n).Nodup := by
  apply List.Nodup.map_on ?_ List.nodup_range
  intro i hi j hj hij
  rw [List.mem_range] at hi hj
  have hval := congrArg UInt32.toNat hij
  simp only [UInt32.toNat_ofNat'] at hval
  omega

variable {parse : String → UInt16 → Option SocketAddr} {cfg : Config}

private theorem NodeStep.draw {s s' : NodeState} {a : Action} {es : List Event}
    (hstep : NodeStep parse cfg s a s' es) :
    (drawn es = [s.seq] ∧ s'.seq = s.seq + 1) ∨ (drawn es = [] ∧ s'.seq = s.seq) := by
  cases hstep with
  | drawFailed
  | drew => exact .inl ⟨rfl, rfl⟩
  | _ => exact .inr ⟨rfl, rfl⟩

theorem run_drawn {ts : List (Turn NodeState Action Event)} {s : NodeState}
    (hrun : (node parse cfg).Run {} ts s) :
    drawn (events ts) = seqs (drawn (events ts)).length ∧
      s.seq = UInt32.ofNat ((drawn (events ts)).length + 1) := by
  refine hrun.invariant (I := fun ts s => drawn (events ts) = seqs (drawn (events ts)).length ∧
    s.seq = UInt32.ofNat ((drawn (events ts)).length + 1)) ⟨rfl, rfl⟩ ?_
  rintro ts s a s' es _ ⟨hseqs, hnext⟩ hstep
  simp only [events_append, events_singleton, drawn_append]
  rcases (NodeStep.of_step hstep).draw with ⟨hdraw, hseq⟩ | ⟨hdraw, hseq⟩
  · rw [hdraw, hseq, List.length_append, List.length_singleton, seqs_succ, ← hseqs, hnext]
    exact ⟨rfl, by simp [UInt32.ofNat_add]⟩
  · rw [hdraw, hseq, List.append_nil]
    exact ⟨hseqs, hnext⟩

/-- Fewer than `2 ^ 32` draws never repeat a number. -/
theorem nodup_drawn {ts : List (Turn NodeState Action Event)} {s : NodeState}
    (hrun : (node parse cfg).Run {} ts s) (hfew : (drawn (events ts)).length < 2 ^ 32) :
    (drawn (events ts)).Nodup := by
  rw [(run_drawn hrun).1]
  exact nodup_seqs hfew

private theorem mem_drawn {es : List Event} {seq : UInt32} {target : Target} {t1 : Option UInt64}
    (h : .drew seq target t1 ∈ es) : seq ∈ drawn es :=
  List.mem_filterMap.mpr ⟨_, h, rfl⟩

/-- A number that is drawn once was drawn for one target at one time. -/
theorem drew_unique {es : List Event} {seq : UInt32} {target target' : Target}
    {t1 t1' : Option UInt64} (hnodup : (drawn es).Nodup) (h : .drew seq target t1 ∈ es)
    (h' : .drew seq target' t1' ∈ es) : target = target' ∧ t1 = t1' := by
  induction es with
  | nil => exact absurd h List.not_mem_nil
  | cons e es ih =>
    by_cases hhead : e.drew? = some seq
    · rw [drawn, List.filterMap_cons_some hhead, List.nodup_cons] at hnodup
      have hrest : ∀ target t1, .drew seq target t1 ∉ es := fun _ _ hmem =>
        hnodup.1 (mem_drawn hmem)
      rw [List.mem_cons] at h h'
      have hfirst := h.resolve_right (hrest _ _)
      rw [← h'.resolve_right (hrest _ _)] at hfirst
      obtain ⟨_, htarget, ht1⟩ := Event.drew.inj hfirst
      exact ⟨htarget, ht1⟩
    · have htail : ∀ {target t1}, .drew seq target t1 ∈ e :: es → .drew seq target t1 ∈ es := by
        intro target t1 hmem
        rcases List.mem_cons.mp hmem with rfl | hmem
        · exact absurd rfl hhead
        · exact hmem
      apply ih _ (htail h) (htail h')
      cases hnone : e.drew? with
      | none => rwa [drawn, List.filterMap_cons_none hnone] at hnodup
      | some seq' =>
        rw [drawn, List.filterMap_cons_some hnone] at hnodup
        exact hnodup.of_cons

private theorem issue_quiet {s s' : NodeState} {es : List Event} (hins : insertedSeqs es = 0)
    (hahead : s'.tx.ahead ≤ s.tx.ahead) :
    insertedSeqs es + s'.tx.ahead ≤ s.tx.ahead + (drawn es : Multiset UInt32) := by
  rw [hins, zero_add]
  exact hahead.trans (Multiset.le_add_right _ _)

/-- In one step a number can only move from the counter to the probe in flight, and from
there into the map. -/
private theorem NodeStep.issue {s s' : NodeState} {a : Action} {es : List Event}
    (hstep : NodeStep parse cfg s a s' es) :
    insertedSeqs es + s'.tx.ahead ≤ s.tx.ahead + (drawn es : Multiset UInt32) := by
  cases hstep with
  | drew t1 htx =>
    rw [htx]
    exact le_refl ({s.seq} : Multiset UInt32)
  | insert htx
  | overwrite htx =>
    rw [htx]
    exact le_refl ({_} : Multiset UInt32)
  | sent htx => exact issue_quiet rfl (by rw [htx]; exact le_rfl)
  | drawFailed htx
  | sendFailed htx
  | tickIdle htx
  | tick htx
  | cleanup htx => exact issue_quiet rfl (Multiset.zero_le _)
  | @sweep _ expired htx =>
    exact issue_quiet rfl (by cases expired <;> exact Multiset.zero_le _)
  | @expire _ rest _ htx =>
    exact issue_quiet rfl (by cases rest <;> exact Multiset.zero_le _)
  | _ => exact issue_quiet rfl le_rfl

/-- Every number is used for at most one probe, inserted or still ahead of the map. -/
theorem run_issued {ts : List (Turn NodeState Action Event)} {s : NodeState}
    (hrun : (node parse cfg).Run {} ts s) :
    insertedSeqs (events ts) + s.tx.ahead ≤ (drawn (events ts) : Multiset UInt32) := by
  refine hrun.invariant (I := fun ts s =>
    insertedSeqs (events ts) + s.tx.ahead ≤ (drawn (events ts) : Multiset UInt32)) (by rfl) ?_
  intro ts s a s' es _ hbefore hstep
  have hissue := (NodeStep.of_step hstep).issue
  simp only [events_append, events_singleton, insertedSeqs_append, drawn_append,
    ← Multiset.coe_add]
  calc insertedSeqs (events ts) + insertedSeqs es + s'.tx.ahead
      = insertedSeqs (events ts) + (insertedSeqs es + s'.tx.ahead) := by rw [add_assoc]
    _ ≤ insertedSeqs (events ts) + (s.tx.ahead + (drawn es : Multiset UInt32)) := by gcongr
    _ = insertedSeqs (events ts) + s.tx.ahead + (drawn es : Multiset UInt32) := by
        rw [add_assoc]
    _ ≤ (drawn (events ts) : Multiset UInt32) + (drawn es : Multiset UInt32) := by gcongr

theorem nodup_issued {ts : List (Turn NodeState Action Event)} {s : NodeState}
    (hrun : (node parse cfg).Run {} ts s) (hfew : (drawn (events ts)).length < 2 ^ 32) :
    (insertedSeqs (events ts) + s.tx.ahead).Nodup :=
  Multiset.nodup_of_le (run_issued hrun) (Multiset.coe_nodup.mpr (nodup_drawn hrun hfew))

/-- All places a probe can be in, by number, are disjoint: no probe is in two of them. -/
theorem nodup_places {ts : List (Turn NodeState Action Event)} {s : NodeState}
    (hrun : (node parse cfg).Run {} ts s) (hfew : (drawn (events ts)).length < 2 ^ 32) :
    ((s.held + tally Event.sampled? (events ts) + tally Event.timedOut? (events ts) +
      tally Event.lost? (events ts)).map Sigma.fst + s.tx.ahead).Nodup := by
  rw [← run_balance hrun]
  exact nodup_issued hrun hfew

theorem few_drawn_of_append {ts us : List (Turn NodeState Action Event)}
    (hfew : (drawn (events (ts ++ us))).length < 2 ^ 32) :
    (drawn (events ts)).length < 2 ^ 32 := by
  rw [events_append, drawn_append, List.length_append] at hfew
  exact Nat.lt_of_le_of_lt (Nat.le_add_right _ _) hfew

/-- A number names one probe. -/
theorem inserted_unique {ts : List (Turn NodeState Action Event)} {s : NodeState} {t u : Token}
    (hrun : (node parse cfg).Run {} ts s) (hfew : (drawn (events ts)).length < 2 ^ 32)
    (ht : t ∈ tally Event.inserted? (events ts)) (hu : u ∈ tally Event.inserted? (events ts))
    (hseq : t.1 = u.1) : t = u := by
  have hnodup := Multiset.nodup_of_le (Multiset.le_add_right _ _) (nodup_issued hrun hfew)
  exact Multiset.inj_on_of_nodup_map hnodup t ht u hu hseq

/-- The probes in all places together are distinct. -/
theorem nodup_tokens {ts : List (Turn NodeState Action Event)} {s : NodeState}
    (hrun : (node parse cfg).Run {} ts s) (hfew : (drawn (events ts)).length < 2 ^ 32) :
    (s.held + tally Event.sampled? (events ts) + tally Event.timedOut? (events ts) +
      tally Event.lost? (events ts)).Nodup := by
  have hplaces := nodup_places hrun hfew
  exact (Multiset.nodup_of_le (Multiset.le_add_right _ _) hplaces).of_map

/-- No insertion finds its own number taken. -/
theorem no_displaced {ts : List (Turn NodeState Action Event)} {s : NodeState}
    (hrun : (node parse cfg).Run {} ts s) (hfew : (drawn (events ts)).length < 2 ^ 32)
    (t : Token) : .displaced t ∉ events ts := by
  intro hmem
  obtain ⟨⟨s₀, a, es, s₁⟩, hturn, hemit⟩ := mem_events.mp hmem
  obtain ⟨before, after, rfl⟩ := List.append_of_mem hturn
  obtain ⟨hbefore, hstep, _⟩ := hrun.middle
  have hnodup := nodup_issued hbefore (few_drawn_of_append hfew)
  have hcases : NodeStep parse cfg s₀ a s₁ es := NodeStep.of_step hstep
  cases hcases with
  | @overwrite probe todo old htx hold =>
    have hin : (⟨probe.seq, old⟩ : Token) ∈ tally Event.inserted? (events before) :=
      inserted_of_pending hbefore hold
    rw [htx] at hnodup
    have hdisjoint := (Multiset.nodup_add.mp hnodup).2.2
    exact Multiset.disjoint_left.mp hdisjoint (Multiset.mem_map_of_mem Sigma.fst hin)
      (Multiset.mem_singleton_self probe.seq)
  | _ => simp at hemit

end Zeitpeer
