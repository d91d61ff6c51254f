import RaftFS.Proofs.Leadership
import RaftFS.Proofs.Paths
import RaftFS.Proofs.Reply

/-!
# Where entries come from

Every entry of a log or of a request has been made by a client's thread, and copied on from logs to
requests and from requests to logs. So what holds of an entry when it is made, and goes on holding
as terms grow, holds of every copy of it (`reach_entries`).
-/

namespace RaftFS

variable {n : ℕ}

namespace Cluster

/-- An entry of a node's log after a step: it was there, it comes from a request of a term the node
has reached, or a client's thread has appended it. -/
inductive EntryStep (s s' : Cluster n) (x : Fin n) (e : Entry) : Prop
  | same (h : e ∈ (s.node x).log.memoryLog)
  | stored {c : AppendEntriesCall n} (hc : c ∈ s.aeCalls) (he : e ∈ c.req.entries)
    (ht : c.req.term = (s'.node x).currentTerm)
  | appended {c : ℕ} {e₀ : Entry} (h : (s.node x).clients[c]? = some (.built e₀))
    (he : e = { e₀ with index := e.index })

theorem step_stored_term {s s' : Cluster n} {k q : ℕ} {c : AppendEntriesCall n}
    (h : s.step (.aeHandle k) = some s') (hc : s.aeCalls[k]? = some c)
    (hq : q ∈ (s.node c.dst).storesAt c.req) : (s'.node c.dst).currentTerm = c.req.term := by
  have hle := Node.storesAt_term_le hq
  simp only [Cluster.step, hc, Option.bind_eq_bind, Option.bind_some] at h
  split_ifs at h
  obtain ⟨⟨nd, resp⟩, hap, h⟩ := Option.bind_eq_some_iff.1 h
  obtain rfl := Option.some.inj h
  simp only [setAECall_node, setNode_node, Function.update_self]
  rcases Node.onAppendEntries_cases hap with ⟨hlt, -⟩ | ⟨_, _, _, _, _, _, -, rfl⟩
  · exact absurd hle (not_le.2 hlt)
  · rfl

theorem step_entries {s s' : Cluster n} {a : Action n} (h : s.step a = some s') {x : Fin n}
    {e : Entry} (he : e ∈ (s'.node x).log.memoryLog) : EntryStep s s' x e := by
  cases step_log h x with
  | same hlog => exact .same (hlog ▸ he)
  | stored ha hc hx hq hl =>
    rcases hl.mem he with hold | hnew
    · exact .same hold
    · subst ha hx
      exact .stored (List.mem_of_getElem? hc) hnew (step_stored_term h hc hq).symm
  | appended _ hth hl =>
    rw [hl] at he
    rcases List.mem_append.1 he with he | he
    · exact .same he
    · rw [List.mem_singleton.1 he]
      exact .appended hth rfl

/-- The entries of a log, and those its clients' threads are to append, have `P` at the node's term,
and those of a request at the request's. -/
structure EntriesHave (P : Cluster n → ℕ → Entry → Prop) (s : Cluster n) : Prop where
  log : ∀ x, ∀ e ∈ (s.node x).log.memoryLog, P s (s.node x).currentTerm e
  sent : ∀ c ∈ s.aeCalls, ∀ e ∈ c.req.entries, P s c.req.term e
  built : ∀ x, ∀ th ∈ (s.node x).clients, ∀ e ∈ th.built?, P s (s.node x).currentTerm e

/-- What holds of an entry when it is made and is kept by steps and by larger terms, whatever the
entry's index, holds of every entry. -/
theorem reach_entries {G : Runs.Guard (Cluster n) (Action n)} {P : Cluster n → ℕ → Entry → Prop}
    (mono : ∀ s a s' T T' e, (cluster n).Reach G s → (cluster n).step s a = some s' → G s a →
      T ≤ T' → P s T e → P s' T' e)
    (index : ∀ s T e i, P s T e → P s T { e with index := i })
    (made : ∀ s x op path, (cluster n).Reach G s → .led op path ∈ (s.node x).clients →
      P s (s.node x).currentTerm ⟨(s.node x).currentTerm, 0, op, path⟩)
    {s : Cluster n} (h : (cluster n).Reach G s) : EntriesHave P s := by
  refine h.inv ?_ ?_
  · rintro _ ⟨env, junk, rfl⟩
    exact ⟨fun x e he => by simp [Cluster.init, Node.init] at he,
      fun c hc => by simp [Cluster.init] at hc,
      fun x th hth => by simp [Cluster.init, Node.init] at hth⟩
  · intro s a s' hs hI hg hst
    have hterm : ∀ x, (s.node x).currentTerm ≤ (s'.node x).currentTerm :=
      fun x => (votesKept_later hs (.step .refl hg hst) x).term
    have hlog : ∀ x, ∀ e ∈ (s'.node x).log.memoryLog, P s' (s'.node x).currentTerm e := by
      intro x e he
      cases step_entries hst he with
      | same he => exact mono _ _ _ _ _ _ hs hst hg (hterm x) (hI.log x e he)
      | stored hc he ht => exact mono _ _ _ _ _ _ hs hst hg ht.le (hI.sent _ hc e he)
      | appended hth he =>
        rw [he]
        exact mono _ _ _ _ _ _ hs hst hg (hterm x)
          (index _ _ _ _ (hI.built x _ (List.mem_of_getElem? hth) _ rfl))
    refine ⟨hlog, fun c hc e he => ?_, fun x th hth e he => ?_⟩
    · obtain ⟨k, hk⟩ := List.mem_iff_getElem?.1 hc
      cases step_aeCalls hst hk with
      | same hc₀ | handled hc₀ =>
        exact mono _ _ _ _ _ _ hs hst hg le_rfl (hI.sent _ (List.mem_of_getElem? hc₀) e he)
      | made => exact hlog _ e (Node.mem_of_appendEntriesRequest he)
    · refine mono _ _ _ _ _ _ hs hst hg (hterm x) ?_
      cases step_clients hst x hth with
      | same hth => exact hI.built x th hth e he
      | new =>
        rw [WriteCall.handler_built] at he
        cases he
      | goOn hth₀ hm =>
        cases hm with
        | built =>
          obtain rfl := Option.some.inj he
          exact made s x _ _ hs (List.mem_of_getElem? hth₀)
        | _ => cases he

end Cluster

open Cluster

section Admitted

/-- What a request that is let in, and has no entry yet, asks for. -/
def ClientThread.admitted? : ClientThread n → Option (MetaOp × Str)
  | .accepted op path | .led op path => some (op, path)
  | _ => none

/-- A node that is not a follower is past term `0`, and so is one that has let a request in, which
is a write of a valid path. -/
structure Admits (nd : Node n) : Prop where
  office : nd.currentRole ≠ .kFollower → 0 < nd.currentTerm
  admitted : ∀ th ∈ nd.clients, ∀ p ∈ th.admitted?, 0 < nd.currentTerm ∧
    (∃ call : WriteCall, call.op = p.1) ∧ FSNamespace.validatePath p.2 = true

theorem Admits.onWrite {nd : Node n} (h : Admits nd) {call : WriteCall} {path : Str}
    {p : MetaOp × Str} (hp : p ∈ (call.handler path nd).admitted?) :
    0 < nd.currentTerm ∧ (∃ call : WriteCall, call.op = p.1) ∧
      FSNamespace.validatePath p.2 = true := by
  rw [WriteCall.handler_eq] at hp
  simp only [Node.onWrite] at hp
  split_ifs at hp with hv hl
  · cases hp
  · cases hp
  · obtain rfl := Option.some.inj hp
    have hrole : nd.currentRole = .kLeader := by simpa using hl
    exact ⟨h.office (by simp [hrole]), ⟨call, rfl⟩, by simpa using hv⟩

theorem reach_admits {G : Runs.Guard (Cluster n) (Action n)} {s : Cluster n}
    (h : (cluster n).Reach G s) (x : Fin n) : Admits (s.node x) := by
  refine h.inv (I := fun s => Admits (s.node x)) ?_ ?_
  · rintro _ ⟨env, junk, rfl⟩
    exact ⟨fun hr => absurd rfl hr, fun th hth => by simp [Cluster.init, Node.init] at hth⟩
  · intro s a s' hs hI hg hst
    have hterm : (s.node x).currentTerm ≤ (s'.node x).currentTerm :=
      (votesKept_later hs (.step .refl hg hst) x).term
    refine ⟨fun hr => ?_, fun th hth p hp => ?_⟩
    · cases step_office hst x with
      | keep ht hr' | learn _ _ _ _ ht hr' => exact ht ▸ hI.office (hr' ▸ hr)
      | stand _ ht => omega
      | win hc ht => exact ht ▸ hI.office (by simp [hc])
      | stepDown _ _ hr' | defer _ _ _ _ hr' => exact absurd hr' hr
    · obtain ⟨hpos, hw⟩ : 0 < (s.node x).currentTerm ∧ (∃ call : WriteCall, call.op = p.1) ∧
          FSNamespace.validatePath p.2 = true := by
        cases step_clients hst x hth with
        | same hth => exact hI.admitted th hth p hp
        | new => exact hI.onWrite hp
        | goOn hth₀ hm =>
          cases hm with
          | led => exact hI.admitted _ (List.mem_of_getElem? hth₀) p hp
          | _ => cases hp
      exact ⟨hpos.trans_le hterm, hw⟩

end Admitted

section Terms

theorem reach_bounded {G : Runs.Guard (Cluster n) (Action n)} {s : Cluster n}
    (h : (cluster n).Reach G s) : EntriesHave (fun _ T e => 0 < e.term ∧ e.term ≤ T) s := by
  refine reach_entries ?_ ?_ ?_ h
  · exact fun s a s' T T' e _ _ _ hT hP => ⟨hP.1, hP.2.trans hT⟩
  · exact fun s T e i hP => hP
  · exact fun s x op path hs hth => ⟨((reach_admits hs x).admitted _ hth _ rfl).1, le_rfl⟩

theorem getLastLogTerm_le {log : LogManager} {T : ℕ} (h : ∀ e ∈ log.memoryLog, e.term ≤ T) :
    log.getLastLogTerm ≤ T := by
  rw [LogManager.getLastLogTerm]
  rcases hl : log.memoryLog.getLast? with _ | e
  · exact Nat.zero_le _
  · exact h e (List.mem_of_getLast? hl)

theorem reach_lastLogTerm_le {G : Runs.Guard (Cluster n) (Action n)} {s : Cluster n}
    (h : (cluster n).Reach G s) : ∀ c ∈ s.rvCalls, c.req.lastLogTerm ≤ c.req.term := by
  refine h.inv (I := fun s => ∀ c ∈ s.rvCalls, c.req.lastLogTerm ≤ c.req.term) ?_ ?_
  · rintro _ ⟨env, junk, rfl⟩ c hc
    simp [Cluster.init] at hc
  · intro s a s' hs hI hg hst c hc
    obtain ⟨k, hk⟩ := List.mem_iff_getElem?.1 hc
    cases step_rvCalls hst hk with
    | @same c₀ _ hc₀ | @handled c₀ hc₀ => exact hI c₀ (List.mem_of_getElem? hc₀)
    | made => exact getLastLogTerm_le fun e he => ((reach_bounded (hs.step hg hst)).log _ e he).2

/-- In any run, the terms of the entries of a log are from `1` to the node's term, those of a
request's entries from `1` to the request's, and a candidate's last log term is not past the term it
stands in. -/
theorem log_terms_bounded {s : Cluster n} (h : (cluster n).Reach Runs.Sys.anyStep s) :
    (∀ x, ∀ e ∈ (s.node x).log.memoryLog, 0 < e.term ∧ e.term ≤ (s.node x).currentTerm) ∧
      (∀ c ∈ s.aeCalls, ∀ e ∈ c.req.entries, 0 < e.term ∧ e.term ≤ c.req.term) ∧
      ∀ c ∈ s.rvCalls, c.req.lastLogTerm ≤ c.req.term :=
  ⟨(reach_bounded h).log, (reach_bounded h).sent, reach_lastLogTerm_le h⟩

/-- Node `0` has an entry and has sent it to node `2`, which stands in the second term. -/
theorem log_terms_bounded_second :
    ∃ s, (cluster 3).Reach Runs.Sys.anyStep s ∧
      (∃ e ∈ (s.node 2).log.memoryLog, e.term ≤ (s.node 2).currentTerm) ∧
      (∃ c ∈ s.aeCalls, ∃ e ∈ c.req.entries, e.term ≤ c.req.term) ∧
      ∃ c ∈ s.rvCalls, c.req.lastLogTerm = 1 ∧ c.req.lastLogTerm ≤ c.req.term := by
  let s := (cluster 3).run Runs.Sys.anyStep start3 (elect 0 1 0 ++ write 0 0 ['/', 'a'] ++
    call 0 2 1 ++ [.leaderTimeout 2, .remoteWake 2 1])
  have hs : (cluster 3).Reach Runs.Sys.anyStep s :=
    Runs.Sys.reach_run reach_start3 (by decide +kernel)
  obtain ⟨hlog, hsent, hvote⟩ := log_terms_bounded hs
  obtain ⟨e, he⟩ : ∃ e, e ∈ (s.node 2).log.memoryLog :=
    ⟨⟨1, 1, .kMkdir, ['/', 'a']⟩, by decide +kernel⟩
  obtain ⟨c, hc, f, hf⟩ : ∃ c ∈ s.aeCalls, ∃ e, e ∈ c.req.entries := by
    refine ⟨(s.aeCalls[1]?).get (by decide +kernel),
      List.mem_of_getElem? (Option.some_get _).symm, ⟨1, 1, .kMkdir, ['/', 'a']⟩, ?_⟩
    decide +kernel
  obtain ⟨d, hd, hlast⟩ : ∃ c ∈ s.rvCalls, c.req.lastLogTerm = 1 := by decide +kernel
  exact ⟨s, hs, ⟨e, he, (hlog 2 e he).2⟩, ⟨c, hc, f, hf, (hsent c hc f hf).2⟩, d, hd, hlast,
    hvote d hd⟩

end Terms

section Integrity

/-- A client has asked for the entry's operation, in a write of a valid path, and has a thread for
it. -/
def Submitted (s : Cluster n) (e : Entry) : Prop :=
  ∃ (y : Fin n) (c : ℕ) (call : WriteCall), Asked s y c call e.value ∧
    (∃ th ∈ (s.node y).clients[c]?, th.asked = (call.op, e.value)) ∧
    e.op = call.op ∧ FSNamespace.validatePath e.value = true

theorem Submitted.valid {s : Cluster n} {e : Entry} (h : Submitted s e) :
    FSNamespace.validatePath e.value = true := by
  obtain ⟨_, _, _, -, -, -, hv⟩ := h
  exact hv

theorem Submitted.later {G : Runs.Guard (Cluster n) (Action n)} {s s' : Cluster n}
    (h : (cluster n).Reach G s) (hl : (cluster n).Later G s s') {e : Entry} (he : Submitted s e) :
    Submitted s' e := by
  obtain ⟨y, c, call, hin, ⟨th, hc, hasked⟩, he⟩ := he
  obtain ⟨th', hc', hasked'⟩ := asked_later h hl y c th hc
  exact ⟨y, c, call, hin.later hl, ⟨th', hc', hasked'.trans hasked⟩, he⟩

theorem reach_submitted {G : Runs.Guard (Cluster n) (Action n)} {s : Cluster n}
    (h : (cluster n).Reach G s) : EntriesHave (fun s _ e => Submitted s e) s := by
  refine reach_entries ?_ (fun s T e i hP => hP) ?_ h
  · exact fun s a s' T T' e hs hst hg _ he => he.later hs (.step .refl hg hst)
  · intro s x op path hs hth
    obtain ⟨-, -, hv⟩ := (reach_admits hs x).admitted _ hth _ rfl
    obtain ⟨c, hc⟩ := List.mem_iff_getElem?.1 hth
    obtain ⟨call, path', hasked, hin⟩ := reach_asked hs hc
    obtain ⟨rfl, rfl⟩ := Prod.mk.inj hasked
    exact ⟨x, c, call, hin, ⟨_, hc, rfl⟩, rfl, hv⟩

theorem applyEntry_known {env : Ptr → Alloc} {fs fs' : FSNamespace} {e : Entry} {rt : Option Bool}
    {call : WriteCall} (hop : e.op = call.op) (h : Node.applyEntry env fs e = some (fs', rt)) :
    rt ≠ none := by
  cases call with
  | _ =>
    simp only [WriteCall.op] at hop
    simp only [Node.applyEntry, hop] at h
    obtain ⟨_, -, h⟩ := Option.map_eq_some_iff.1 h
    rw [← (Prod.mk.inj h).2]
    exact Option.some_ne_none _

/-- In any run, every entry of a log or a request has been asked for in a write of a valid path. So
where `FSUpdateLoop` applies an entry it knows the operation, the path has a part, and in reading
the parts no difference wraps around and no index is out of range. -/
theorem entry_integrity {s : Cluster n} (h : (cluster n).Reach Runs.Sys.anyStep s) :
    (∀ x, ∀ e ∈ (s.node x).log.memoryLog, Submitted s e) ∧
      (∀ c ∈ s.aeCalls, ∀ e ∈ c.req.entries, Submitted s e) ∧
      ∀ x i commited e, (s.node x).fsThread = .apply i commited →
        (s.node x).log.getEntry i = some e →
          (∀ env fs rt, Node.applyEntry env (s.node x).fs e = some (fs, rt) → rt ≠ none) ∧
          FSNamespace.splitPath e.value ≠ [] ∧
          (∀ f, (s.node x).fs.getParentFolderAndChildAt e.value = .error f → f = .tree) ∧
          ∀ env f, (s.node x).fs.makeDirAt env e.value true = .error f → f = .tree := by
  have hI := reach_submitted h
  refine ⟨hI.log, hI.sent, fun x i _ e _ he => ?_⟩
  obtain ⟨_, _, call, -, -, hop, hv⟩ := hI.log x e (LogManager.mem_of_getEntry he).1
  have htree : ∀ {α : Type} {o : Option α} {f}, FSNamespace.ofTree o = .error f → f = .tree := by
    intro α o f hf
    cases o with
    | none => exact (Except.error.inj hf).symm
    | some a => cases hf
  refine ⟨fun env fs rt => applyEntry_known hop, FSNamespace.splitPath_ne_nil hv, fun f hf => ?_,
    fun env f hf => ?_⟩
  · rw [FSNamespace.getParentFolderAndChildAt_eq _ hv] at hf
    exact htree hf
  · rw [FSNamespace.makeDirAt_eq _ env _ unknownOwner] at hf
    exact htree hf

/-- Node `2` is about to apply an entry that a client has asked of node `0`. -/
theorem entry_integrity_second :
    ∃ s e, (cluster 3).Reach Runs.Sys.anyStep s ∧ (s.node 2).fsThread = .apply 2 0 ∧
      (s.node 2).log.getEntry (2 : ℕ) = some e ∧ Submitted s e ∧
      FSNamespace.splitPath e.value ≠ [] := by
  let s := (cluster 3).run Runs.Sys.anyStep start3
    (secondCommit ++ List.replicate 4 (.fsStep 2 fun _ => ⟨0, 0⟩))
  have hs : (cluster 3).Reach Runs.Sys.anyStep s :=
    Runs.Sys.reach_run reach_start3 (by decide +kernel)
  have hth : (s.node 2).fsThread = .apply 2 0 := by decide +kernel
  obtain ⟨e, he⟩ : ∃ e, (s.node 2).log.getEntry (2 : ℕ) = some e :=
    Option.isSome_iff_exists.1 (by decide +kernel)
  obtain ⟨hlog, -, hap⟩ := entry_integrity hs
  exact ⟨s, e, hs, hth, he, hlog 2 e (LogManager.mem_of_getEntry he).1,
    (hap 2 2 0 e hth he).2.1⟩

end Integrity

end RaftFS
