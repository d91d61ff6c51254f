import RaftFS.Proofs.Acks
import RaftFS.Proofs.Refusals

/-!
# Acknowledgements lost

A response has the term the follower was in before it learned the request's, and the leader records
only responses of its own term. So an acknowledgement of a follower that was in the leader's term
already is recorded (`ack_recorded`), and one of a follower that learned the term from the request
is lost (`ack_lost`).
-/

namespace RaftFS

variable {n : ℕ}

open Node

instance (req : AppendEntriesRequest n) (log : LogManager) : Decidable (Refused req log) :=
  inferInstanceAs (Decidable (_ ∨ ∃ front ∈ req.entries.head?, _))

namespace Cluster

/-- A node that stores the entries of a request is in the request's term already. -/
def InTerm (s : Cluster n) : Action n → Prop
  | .aeHandle k => ∀ c ∈ s.aeCalls[k]?, c.req.entries ≠ [] → ¬ Refused c.req (s.node c.dst).log →
      c.req.term ≤ (s.node c.dst).currentTerm
  | _ => True

instance (s : Cluster n) (a : Action n) : Decidable (InTerm s a) :=
  Action.decidable (Q := True) (fun
    | .aeHandle k => some (inferInstanceAs (Decidable (∀ c ∈ s.aeCalls[k]?, _ → _ → _)))
    | _ => none) a

theorem step_log_ne_nil {s s' : Cluster n} {a : Action n} (h : s.step a = some s') {x : Fin n}
    (hne : (s.node x).log.memoryLog ≠ []) : (s'.node x).log.memoryLog ≠ [] := by
  cases step_log h x with
  | same h => exact h ▸ hne
  | stored _ _ _ _ hl => exact hl.ne_nil_of
  | appended _ _ hl =>
    rw [hl]
    exact List.append_ne_nil_of_left_ne_nil hne _

theorem reach_srcLog {G : Runs.Guard (Cluster n) (Action n)} {s : Cluster n}
    (h : (cluster n).Reach G s) :
    ∀ c ∈ s.aeCalls, c.req.entries ≠ [] → (s.node c.src).log.memoryLog ≠ [] := by
  refine reach_aeCalls (P := fun s c => c.req.entries ≠ [] → (s.node c.src).log.memoryLog ≠ [])
    ?_ ?_ h
  · intro s a s' c _ hst hold he
    exact step_log_ne_nil hst (hold he)
  · intro s x r _ _ he
    obtain ⟨e, he⟩ := List.exists_mem_of_ne_nil _ he
    exact List.ne_nil_of_mem (mem_of_appendEntriesRequest he)

/-- A success for entries has the request's term. -/
theorem reach_ackTerm {s : Cluster n} (h : (cluster n).Reach InTerm s) :
    ∀ c ∈ s.aeCalls, ∀ resp ∈ c.phase.resp?, resp.success = true → c.req.entries ≠ [] →
      resp.term = c.req.term := by
  refine h.inv (I := fun s => ∀ c ∈ s.aeCalls, ∀ resp ∈ c.phase.resp?, resp.success = true →
    c.req.entries ≠ [] → resp.term = c.req.term) ?_ ?_
  · rintro _ ⟨env, junk, rfl⟩ c hc
    simp [Cluster.init] at hc
  · intro s a s' _ hI hg hst c hc resp hp hs he
    obtain ⟨k, hk⟩ := List.mem_iff_getElem?.1 hc
    cases step_aeCalls hst hk with
    | same hc₀ hp₀ => exact hI _ (List.mem_of_getElem? hc₀) resp (hp₀ ▸ hp) hs he
    | @handled c nd r hc₀ ha hap =>
      obtain rfl := Option.some.inj hp
      subst ha
      rcases onAppendEntries_cases hap with ⟨-, -, rfl⟩ | ⟨_, _, _, _, _, _, hacc, -⟩
      · cases hs
      · have hnot : ¬ Refused c.req (s.node c.dst).log := by
          intro hr
          rcases storeEntries_cases c.req (s.node c.dst).log with ⟨-, hst⟩ | ⟨hno, -⟩
          · have := (Prod.mk.inj (Option.some.inj (hst.symm.trans hacc.stored))).2
            rw [hs] at this
            cases this
          · exact hno hr
        rw [hacc.resp_term]
        exact hacc.term_le.antisymm (hg c hc₀ he hnot)
    | made => cases hp

theorem exists_step_aeReturn {s : Cluster n} {k : ℕ} {c : AppendEntriesCall n}
    {resp : AppendEntriesResponse} {nd : Node n} {commit : Option ℕ} {next : Next}
    (hc : s.aeCalls[k]? = some c) (hp : c.phase = .handled resp) (hin : s.inAECall k c = true)
    (h : (s.node c.src).onAppendEntriesResponse c.dst c.req resp = some (nd, commit, next)) :
    ∃ s' f, s.step (.aeReturn k) = some s' ∧ s'.node c.src = { nd with remoteThread := f } := by
  let t := (s.setNode c.src nd).log
    (commit.map fun N => .committed c.src nd.currentTerm N nd.log.memoryLog)
  have ht : t.node c.src = nd := Function.update_self _ _ _
  obtain ⟨f, hf⟩ := (goOn_resume t c.src c.dst c.ne next).node c.src
  refine ⟨t.goOn c.src c.dst c.ne next, f, ?_, ht ▸ hf⟩
  simp only [Cluster.step, hc, Option.bind_eq_bind, Option.bind_some, hp, hin, if_true,
    takeAppendEntries, h, Option.pure_def]
  rfl

end Cluster

open Cluster

/-- In every run in which the nodes that store entries are in the term of the request already: where
a leader takes up a success for entries in the term of the request, the follower is put on record
for each entry that is not committed, and its next index is the one after its last. -/
theorem ack_recorded {s : Cluster n} (h : (cluster n).Reach InTerm s) {k : ℕ}
    {c : AppendEntriesCall n} {resp : AppendEntriesResponse} (hc : s.aeCalls[k]? = some c)
    (hp : c.phase = .handled resp) (hs : resp.success = true) (he : c.req.entries ≠ [])
    (hin : s.inAECall k c = true) (ht : (s.node c.src).currentTerm = c.req.term) :
    ∃ s', (cluster n).step s (.aeReturn k) = some s' ∧
      (s'.node c.src).nextIndex c.dst = resp.lastLogIndex + 1 ∧
      ∀ e ∈ c.req.entries, (s.node c.src).log.getLastCommitIndex < e.index →
        c.dst ∈ (s'.node c.src).pendingEntries e.index := by
  have hmem := List.mem_of_getElem? hc
  have hterm : resp.term = (s.node c.src).currentTerm :=
    (reach_ackTerm h c hmem resp (by rw [hp]; rfl) hs he).trans ht.symm
  obtain ⟨log, fs, commit, hr, -, -⟩ :=
    recordAck_eq c.dst c.req resp rfl (.inl (reach_srcLog h c hmem he))
  have htake : ∃ r, (s.node c.src).onAppendEntriesResponse c.dst c.req resp = some r ∧
      r.1.nextIndex c.dst = resp.lastLogIndex + 1 ∧ ∀ e ∈ c.req.entries,
        (s.node c.src).log.getLastCommitIndex < e.index → c.dst ∈ r.1.pendingEntries e.index := by
    rw [onAppendEntriesResponse_success c.dst hterm hs he, hr]
    refine ⟨_, rfl, Function.update_self _ _ _, fun e he hlt => ?_⟩
    simp only [countAcks_pending, hlt, true_and]
    rw [if_pos ⟨e, he, rfl⟩]
    exact Finset.mem_insert_self _ _
  obtain ⟨⟨nd, commit, next⟩, htake, hnext, hpending⟩ := htake
  obtain ⟨s', f, hst, hnode⟩ := exists_step_aeReturn hc hp hin htake
  refine ⟨s', hst, ?_⟩
  rw [hnode]
  exact ⟨hnext, hpending⟩

/-- Node `1` has voted for node `0` and stores its entry in the term of the request. -/
theorem ack_recorded_voter :
    ∃ s s', (cluster 3).Reach InTerm s ∧ (cluster 3).step s (.aeReturn 1) = some s' ∧
      (s'.node 0).nextIndex 1 = 2 ∧ 1 ∈ (s'.node 0).pendingEntries 1 := by
  let s := (cluster 3).run InTerm start3
    (elect 0 1 0 ++ write 0 0 ['/', 'a'] ++ [.aeFail 0] ++ call 0 1 1)
  have hs : (cluster 3).Reach InTerm s := Runs.Sys.reach_run reach_start3 (by decide +kernel)
  let e : Entry := ⟨1, 1, .kMkdir, ['/', 'a']⟩
  let c : AppendEntriesCall 3 :=
    ⟨0, 1, by decide, ⟨1, 0, 0, 1, [e], 0⟩, [e], .handled ⟨1, true, 1⟩⟩
  have hc : s.aeCalls[1]? = some c := by decide +kernel
  obtain ⟨s', hst, hnext, hpending⟩ :=
    ack_recorded hs hc rfl rfl (by decide) (by decide +kernel) (by decide +kernel)
  exact ⟨s, s', hs, hst, hnext, hpending e (by decide) (by decide +kernel)⟩

/-- Node `2` learns the term of node `0` with its entry. Node `0`, which still leads the term, does
not put it on record. -/
theorem ack_lost :
    ∃ s s' k c resp, (cluster 3).Reach Runs.Sys.anyStep s ∧ s.aeCalls[k]? = some c ∧
      c.phase = .handled resp ∧ resp.success = true ∧ c.req.entries ≠ [] ∧
      (s.node c.src).currentRole = .kLeader ∧ (s.node c.src).currentTerm = c.req.term ∧
      (cluster 3).step s (.aeReturn k) = some s' ∧
      (s'.node c.src).nextIndex c.dst ≠ resp.lastLogIndex + 1 ∧
      ∃ e ∈ c.req.entries, (s.node c.src).log.getLastCommitIndex < e.index ∧
        c.dst ∉ (s'.node c.src).pendingEntries e.index := by
  let s := (cluster 3).run Runs.Sys.anyStep start3
    (elect 0 1 0 ++ write 0 0 ['/', 'a'] ++ call 0 2 1)
  have hs : (cluster 3).Reach Runs.Sys.anyStep s :=
    Runs.Sys.reach_run reach_start3 (by decide +kernel)
  let s' := ((cluster 3).step s (.aeReturn 1)).get (by decide +kernel)
  have hst : (cluster 3).step s (.aeReturn 1) = some s' := (Option.some_get _).symm
  let e : Entry := ⟨1, 1, .kMkdir, ['/', 'a']⟩
  let c : AppendEntriesCall 3 :=
    ⟨0, 2, by decide, ⟨1, 0, 0, 1, [e], 0⟩, [e], .handled ⟨0, true, 1⟩⟩
  have hc : s.aeCalls[1]? = some c := by decide +kernel
  exact ⟨s, s', 1, c, _, hs, hc, rfl, rfl, by decide, by decide +kernel, by decide +kernel, hst,
    by decide +kernel, e, by decide, by decide +kernel, by decide +kernel⟩

end RaftFS
