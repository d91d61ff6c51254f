import RaftFS.Proofs.Votes

/-!
# The order of a log

A node's log has the indices `1`, `2`, ... and terms that never decrease, and a request has what
the sender's log had after `prevLogIndex`, as long as two things hold (`log_ordered`): a batch laid
over the log does not reach more than one entry past its end, and what is put at the end is not of
an earlier term than the end. Where a batch reaches two entries past the end, the first of them is
lost (`log_with_gap`).
-/

namespace RaftFS

variable {n : ℕ}

open Cluster

section Logs

/-- Every log has `P`, and a request has what such a log had after `prevLogIndex`. -/
structure LogsHave (P : List Entry → Prop) (s : Cluster n) : Prop where
  log : ∀ x, P (s.node x).log.memoryLog
  sent : ∀ c ∈ s.aeCalls, P c.srcLog ∧ c.req.entries = c.srcLog.drop c.req.prevLogIndex

namespace LogsHave

variable {P : List Entry → Prop} {s t : Cluster n}

theorem quiet (h : LogsHave P s) (hq : Quiet s t) : LogsHave P t where
  log x := by
    rw [(hq.core x).log]
    exact h.log x
  sent c hc := by
    obtain ⟨c', hc', ph, rfl, -⟩ := hq.aeCalls c hc
    exact h.sent c' hc'

theorem update (h : LogsHave P s) {x : Fin n} {nd : Node n}
    (hn : t.node = Function.update s.node x nd) (hl : P nd.log.memoryLog)
    (hc : t.aeCalls = s.aeCalls) : LogsHave P t := by
  refine ⟨?_, hc ▸ h.sent⟩
  rw [hn]
  exact forall_update (P := fun _ nd => P nd.log.memoryLog) h.log hl

theorem handled (h : LogsHave P s) (hP : ∀ l, P l → Numbered l) {c : AppendEntriesCall n}
    (hc : c ∈ s.aeCalls) {nd : Node n} {resp : AppendEntriesResponse}
    (hap : (s.node c.dst).onAppendEntries c.req = some (nd, resp)) :
    c.req.prevLogIndex ∈ (s.node c.dst).storesAt c.req ∧
        LogManager.Laid (s.node c.dst).log.memoryLog (c.srcLog.drop c.req.prevLogIndex)
          c.req.prevLogIndex nd.log.memoryLog ∨
      nd.log.memoryLog = (s.node c.dst).log.memoryLog := by
  obtain ⟨hsrc, hes⟩ := h.sent c hc
  rcases Node.onAppendEntries_laid hap with ⟨q, hq, -, hprev, hl⟩ | ⟨-, heq, -⟩
  · have hn := hP _ (h.log c.dst)
    rw [LogManager.getLastLogIndex_eq hn] at hprev
    rw [hes] at hl
    obtain rfl := hl.place hn (hP _ hsrc) hprev
    exact .inl ⟨hq, hl⟩
  · exact .inr heq

end LogsHave

/-- What every log begins with and batches and clients' entries leave holds of every log in a
run, and of the logs that requests were cut from. -/
theorem reach_logsHave {G : Runs.Guard (Cluster n) (Action n)} {P : List Entry → Prop}
    (nil : P []) (hP : ∀ l, P l → Numbered l)
    (laid : ∀ s k c l', G s (.aeHandle k) → s.aeCalls[k]? = some c →
      P (s.node c.dst).log.memoryLog → P c.srcLog →
      c.req.entries = c.srcLog.drop c.req.prevLogIndex →
      c.req.prevLogIndex ∈ (s.node c.dst).storesAt c.req →
      LogManager.Laid (s.node c.dst).log.memoryLog (c.srcLog.drop c.req.prevLogIndex)
        c.req.prevLogIndex l' → P l')
    (append : ∀ s x c e, G s (.clientStep x c) → (s.node x).clients[c]? = some (.built e) →
      P (s.node x).log.memoryLog → P ((s.node x).log.append e).1.memoryLog)
    {s : Cluster n} (h : (cluster n).Reach G s) : LogsHave P s := by
  refine reach_inv (fun env junk => ?_) (fun s t => LogsHave.quiet) ?_ ?_
    (fun s x r h hI _ => hI.update rfl (hI.log x) rfl) h
  · exact ⟨fun x => nil, fun c hc => by simp [Cluster.init] at hc⟩
  · intro s a t _ hg hI hm
    cases hm with
    | timeout =>
      refine hI.update rfl ?_ rfl
      rw [(Node.startLeaderElection_work _ _).log]
      exact hI.log _
    | aeHandle hc hp hap =>
      have hmem := List.mem_of_getElem? hc
      obtain ⟨hsrc, hes⟩ := hI.sent _ hmem
      refine ⟨forall_update (P := fun _ nd => P nd.log.memoryLog) hI.log ?_,
        forall_set hI.sent ⟨hsrc, hes⟩⟩
      rcases hI.handled hP hmem hap with ⟨hq, hl⟩ | heq
      · exact laid _ _ _ _ hg hc (hI.log _) hsrc hes hq hl
      · exact heq ▸ hI.log _
    | aeTake hc ha hap =>
      refine hI.update rfl ?_ rfl
      rcases Node.onAppendEntriesResponse_cases hap with
        ⟨-, -, -, hr⟩ | ⟨-, -, rfl⟩ | ⟨-, _, rfl, -⟩
      · obtain ⟨_, log, _, rfl, hm, -⟩ := Node.recordAck_cases hr
        exact hm ▸ hI.log _
      · exact hI.log _
      · exact hI.log _
    | rvHandle =>
      refine hI.update rfl ?_ rfl
      rw [(Node.onRequestVote_work _ _).log]
      exact hI.log _
    | rvTake hc ha hap =>
      refine hI.update rfl ?_ rfl
      rw [(Node.onRequestVoteResponse_work hap).log]
      exact hI.log _
    | append he => exact hI.update rfl (append _ _ _ _ hg he (hI.log _)) rfl
  · intro s x r hne hI _
    refine ⟨forall_update (P := fun _ nd => P nd.log.memoryLog) hI.log (hI.log x),
      forall_concat hI.sent ⟨hI.log x, ?_⟩⟩
    exact Node.appendEntriesRequest_entries x r (hP _ (hI.log x))

end Logs

section Numbers

/-- A batch written over the log reaches at most one entry past its end. -/
def NoGap (s : Cluster n) : Action n → Prop
  | .aeHandle k => ∀ c ∈ s.aeCalls[k]?, ∀ q ∈ (s.node c.dst).storesAt c.req,
      q < (s.node c.dst).log.memoryLog.length →
        q + c.req.entries.length ≤ (s.node c.dst).log.memoryLog.length + 1
  | _ => True

instance (s : Cluster n) (a : Action n) : Decidable (NoGap s a) :=
  Action.decidable (Q := True) (fun
    | .aeHandle k => some (inferInstanceAs (Decidable (∀ c ∈ s.aeCalls[k]?,
        ∀ q ∈ (s.node c.dst).storesAt c.req, _ → _)))
    | _ => none) a

theorem Numbered.overlay {l es : List Entry} {q : ℕ} (h : Numbered l) (hq : q ≤ l.length)
    (hn : ∀ (j : ℕ) (e : Entry), es[j]? = some e → e.index = q + j + 1) :
    Numbered (LogManager.overlay l es q) := by
  intro p y hy
  rcases lt_or_ge p q with hp | hp
  · rw [LogManager.getElem?_overlay_of_lt hp hq] at hy
    exact h p y hy
  · obtain ⟨e, x, he, -, rfl⟩ := LogManager.mem_overlay hq hp hy
    rw [LogManager.pick_index, hn _ _ he]
    omega

theorem Numbered.drop {l : List Entry} (h : Numbered l) {p j : ℕ} {e : Entry}
    (he : (l.drop p)[j]? = some e) : e.index = p + j + 1 := by
  rw [List.getElem?_drop] at he
  exact h _ _ he

theorem Numbered.laid {l src l' : List Entry} {p : ℕ} (h : Numbered l) (hs : Numbered src)
    (hl : LogManager.Laid l (src.drop p) p l')
    (hf : p < l.length → p + (src.drop p).length ≤ l.length + 1) : Numbered l' := by
  rcases hl.le.lt_or_eq with hq | hq
  · rw [(hl.inside hq).1, LogManager.laidOver_eq hl.le (hf hq)]
    exact h.overlay hl.le fun j e => hs.drop
  · rw [(hl.atEnd hq).1]
    refine h.append fun j e he => ?_
    rw [hs.drop he, hq]

theorem LogsHave.numbered_handled {s : Cluster n} (h : LogsHave Numbered s) {k : ℕ}
    (hg : NoGap s (.aeHandle k)) {c : AppendEntriesCall n} (hc : s.aeCalls[k]? = some c)
    {nd : Node n} {resp : AppendEntriesResponse}
    (hap : (s.node c.dst).onAppendEntries c.req = some (nd, resp)) :
    Numbered nd.log.memoryLog := by
  have hmem := List.mem_of_getElem? hc
  obtain ⟨hsrc, hes⟩ := h.sent c hmem
  rcases h.handled (fun _ => id) hmem hap with ⟨hq, hl⟩ | heq
  · refine (h.log _).laid hsrc hl fun hlt => ?_
    rw [← hes]
    exact hg c hc _ hq hlt
  · exact heq ▸ h.log _

theorem reach_numbered {G : Runs.Guard (Cluster n) (Action n)} (hG : ∀ s a, G s a → NoGap s a)
    {s : Cluster n} (h : (cluster n).Reach G s) : LogsHave Numbered s := by
  refine reach_logsHave .nil (fun _ => id) (fun s k c l' hg hc hl hs he hq hlaid => ?_)
    (fun s x c e _ _ hl => hl.concat rfl) h
  refine hl.laid hs hlaid fun hlt => ?_
  rw [← he]
  exact hG s _ hg c hc _ hq hlt

end Numbers

/-- The indices are `1`, `2`, ..., and the terms never decrease. -/
structure Ordered (l : List Entry) : Prop where
  numbered : Numbered l
  sorted : l.Pairwise fun a b => a.term ≤ b.term

/-- Written from `q` on, `es` reaches at most one entry past the end of `l`, and if it is put at the
end, it does not begin with an earlier term. -/
def FitsAt (l es : List Entry) (q : ℕ) : Prop :=
  (q < l.length → q + es.length ≤ l.length + 1) ∧
    (q = l.length → ∀ back ∈ l.getLast?, ∀ front ∈ es.head?, back.term ≤ front.term)

instance (l es : List Entry) (q : ℕ) : Decidable (FitsAt l es q) :=
  inferInstanceAs (Decidable (_ ∧ (_ → ∀ back ∈ l.getLast?, ∀ front ∈ es.head?, _)))

namespace Ordered

variable {l es l' : List Entry} {q p : ℕ}

theorem nil : Ordered [] := ⟨.nil, List.Pairwise.nil⟩

theorem sorted_le (h : l.Pairwise fun a b => a.term ≤ b.term) {i j : ℕ} (hij : i ≤ j) {a b : Entry}
    (ha : l[i]? = some a) (hb : l[j]? = some b) : a.term ≤ b.term := by
  obtain ⟨hi, rfl⟩ := List.getElem?_eq_some_iff.1 ha
  obtain ⟨hj, rfl⟩ := List.getElem?_eq_some_iff.1 hb
  rcases hij.lt_or_eq with hlt | rfl
  · exact List.pairwise_iff_getElem.1 h i j hi hj hlt
  · exact le_rfl

theorem concat (h : Ordered l) {e : Entry} (hi : e.index = l.length + 1)
    (ht : ∀ back ∈ l.getLast?, back.term ≤ e.term) : Ordered (l ++ [e]) := by
  refine ⟨h.numbered.concat hi, List.pairwise_append.2 ⟨h.sorted, List.pairwise_singleton _ _, ?_⟩⟩
  intro a ha b hb
  rw [List.mem_singleton.1 hb]
  obtain ⟨l, back, rfl⟩ : ∃ m x, l = m ++ [x] :=
    ⟨_, _, (List.dropLast_append_getLast (List.ne_nil_of_mem ha)).symm⟩
  have hback := ht back (by simp)
  rcases List.mem_append.1 ha with ha | ha
  · exact ((List.pairwise_append.1 h.sorted).2.2 a ha back (List.mem_singleton_self _)).trans hback
  · rw [List.mem_singleton.1 ha]
    exact hback

theorem append (h : Ordered l) (hn : ∀ (j : ℕ) (e : Entry), es[j]? = some e →
    e.index = l.length + j + 1) (hs : es.Pairwise fun a b => a.term ≤ b.term)
    (ht : ∀ back ∈ l.getLast?, ∀ front ∈ es.head?, back.term ≤ front.term) :
    Ordered (l ++ es) := by
  induction es generalizing l with
  | nil => simpa using h
  | cons e es ih =>
    have he : Ordered (l ++ [e]) := h.concat (hn 0 e rfl) fun back hb => ht back hb e rfl
    rw [← List.singleton_append, ← List.append_assoc]
    refine ih he (fun j x hx => ?_) (List.pairwise_cons.1 hs).2 fun back hb front hf => ?_
    · rw [hn (j + 1) x hx, List.length_append, List.length_singleton]
      omega
    · obtain rfl : e = back := by simpa using hb
      exact (List.pairwise_cons.1 hs).1 front (List.mem_of_mem_head? hf)

/-- A batch laid over the log from an entry of its first entry's term on. -/
theorem overlay (h : Ordered l) (hq : q ≤ l.length)
    (hn : ∀ (j : ℕ) (e : Entry), es[j]? = some e → e.index = q + j + 1)
    (hs : es.Pairwise fun a b => a.term ≤ b.term)
    (ht : ∀ x ∈ l[q]?, ∀ front ∈ es.head?, x.term = front.term) :
    Ordered (LogManager.overlay l es q) := by
  have hget : ∀ {p y}, (LogManager.overlay l es q)[p]? = some y →
      p < q ∧ l[p]? = some y ∨
        q ≤ p ∧ ∃ e x, es[p - q]? = some e ∧ l[p]? = some x ∧ y = LogManager.pick e x := by
    intro p y hy
    rcases lt_or_ge p q with hp | hp
    · rw [LogManager.getElem?_overlay_of_lt hp hq] at hy
      exact .inl ⟨hp, hy⟩
    · exact .inr ⟨hp, LogManager.mem_overlay hq hp hy⟩
  refine ⟨h.numbered.overlay hq hn, List.pairwise_iff_getElem.2 fun i j hi hj hij => ?_⟩
  · rcases hget (List.getElem?_eq_getElem hj) with ⟨hjq, hb⟩ | ⟨hjq, e, x, he, hx, hb⟩
    · obtain ⟨-, ha⟩ := (hget (List.getElem?_eq_getElem hi)).resolve_right (by omega)
      exact sorted_le h.sorted hij.le ha hb
    · rw [hb, LogManager.pick_term]
      rcases hget (List.getElem?_eq_getElem hi) with ⟨hiq, ha⟩ | ⟨hiq, e', x', he', -, ha⟩
      · -- the entry at `q` is in between
        have hlt : q < l.length := by
          obtain ⟨hlt, -⟩ := List.getElem?_eq_some_iff.1 hx
          omega
        have hpos : 0 < es.length := by
          obtain ⟨hlt, -⟩ := List.getElem?_eq_some_iff.1 he
          omega
        have hz := List.getElem?_eq_getElem hlt
        have hf := List.getElem?_eq_getElem hpos
        calc _ ≤ (l[q]).term := sorted_le h.sorted hiq.le ha hz
          _ = (es[0]).term := ht _ hz _ (by rw [List.head?_eq_getElem?]; exact hf)
          _ ≤ e.term := sorted_le hs (Nat.zero_le _) hf he
      · rw [ha, LogManager.pick_term]
        exact sorted_le hs (by omega) he' he

theorem laid {src : List Entry} (h : Ordered l) (hs : Ordered src)
    (hl : LogManager.Laid l (src.drop p) p l') (hf : FitsAt l (src.drop p) p) : Ordered l' := by
  have hn : ∀ (j : ℕ) (e : Entry), (src.drop p)[j]? = some e → e.index = p + j + 1 :=
    fun j e => hs.numbered.drop
  have hsorted : (src.drop p).Pairwise fun a b => a.term ≤ b.term :=
    hs.sorted.sublist (List.drop_sublist _ _)
  rcases hl.le.lt_or_eq with hq | hq
  · obtain ⟨rfl, hfront⟩ := hl.inside hq
    rw [LogManager.laidOver_eq hl.le (hf.1 hq)]
    exact h.overlay hl.le hn hsorted fun x hx front hfr => (hfront front hfr x hx).2
  · obtain ⟨rfl, -⟩ := hl.atEnd hq
    exact h.append (hq ▸ hn) hsorted (hf.2 hq)

end Ordered

/-- The batch handled, if it is written at all, fits, and an entry a client's thread appends is not
of an earlier term than the log's end. -/
def KeepsOrder (s : Cluster n) : Action n → Prop
  | .aeHandle k => ∀ c ∈ s.aeCalls[k]?, ∀ q ∈ (s.node c.dst).storesAt c.req,
      FitsAt (s.node c.dst).log.memoryLog c.req.entries q
  | .clientStep x c => ∀ cl ∈ (s.node x).clients[c]?, ∀ e ∈ cl.built?,
      (s.node x).log.getLastLogTerm ≤ e.term
  | _ => True

instance (s : Cluster n) (a : Action n) : Decidable (KeepsOrder s a) :=
  Action.decidable (Q := True) (fun
    | .aeHandle k => some (inferInstanceAs (Decidable (∀ c ∈ s.aeCalls[k]?,
        ∀ q ∈ (s.node c.dst).storesAt c.req, FitsAt _ _ q)))
    | .clientStep x c => some (inferInstanceAs (Decidable (∀ cl ∈ (s.node x).clients[c]?,
        ∀ e ∈ cl.built?, (s.node x).log.getLastLogTerm ≤ e.term)))
    | _ => none) a

/-- Every log is in order, and a request has what an ordered log had after `prevLogIndex`. -/
structure LogsOrdered (s : Cluster n) : Prop where
  log : ∀ x, Ordered (s.node x).log.memoryLog
  sent : ∀ c ∈ s.aeCalls, Ordered c.srcLog ∧ c.req.entries = c.srcLog.drop c.req.prevLogIndex

theorem reach_logsOrdered {s : Cluster n} (h : (cluster n).Reach KeepsOrder s) : LogsOrdered s := by
  suffices hL : LogsHave Ordered s from ⟨hL.log, hL.sent⟩
  refine reach_logsHave .nil (fun _ => Ordered.numbered)
    (fun s k c l' hg hc hl hs he hq hlaid => hl.laid hs hlaid (he ▸ hg c hc _ hq))
    (fun s x c e hg he hl => hl.concat rfl fun back hb => ?_) h
  have ht := hg _ he e rfl
  rwa [LogManager.getLastLogTerm, Option.mem_def.1 hb] at ht

/-- Where every batch fits and clients' entries are not behind, every node's log has the indices
`1`, `2`, ... and terms that never decrease. -/
theorem log_ordered {s : Cluster n} (h : (cluster n).Reach KeepsOrder s) (x : Fin n) :
    (∀ (p : ℕ) (e : Entry), (s.node x).log.memoryLog[p]? = some e → e.index = p + 1) ∧
      (s.node x).log.memoryLog.Pairwise fun a b => a.term ≤ b.term :=
  ⟨((reach_logsOrdered h).log x).numbered, ((reach_logsOrdered h).log x).sorted⟩

/-- A client makes a write of the leader `x`, as its client `c`, and the entry is appended. -/
def write (x : Fin 3) (c : ℕ) (path : Str) (call : WriteCall := .mkdir) : List (Action 3) :=
  [.clientRequest x call path, .clientStep x c, .clientStep x c, .clientStep x c]

/-- The leader `x` calls `r`, in its call `k`, and `r` handles it. -/
def call (x r : Fin 3) (k : ℕ) : List (Action 3) := [.remoteWake x r, .aeSend k, .aeHandle k]

/-- A leader with two entries, of which a node has got the first twice. -/
theorem log_ordered_twice :
    ∃ s, (cluster 3).Reach KeepsOrder s ∧ (s.node 0).log.memoryLog.length = 2 ∧
      (s.node 2).log.memoryLog.length = 1 ∧ ∀ x, (∀ (p : ℕ) (e : Entry),
        (s.node x).log.memoryLog[p]? = some e → e.index = p + 1) ∧
        (s.node x).log.memoryLog.Pairwise fun a b => a.term ≤ b.term := by
  let s := (cluster 3).run KeepsOrder start3 (elect 0 1 0 ++ write 0 0 ['/', 'a'] ++ call 0 2 1 ++
    [.aeReturn 1] ++ write 0 1 ['/', 'b'] ++ call 0 2 2)
  have hs : (cluster 3).Reach KeepsOrder s := Runs.Sys.reach_run reach_start3 (by decide +kernel)
  exact ⟨s, hs, by decide +kernel, by decide +kernel, fun x => log_ordered hs x⟩

/-- A node that has the first entry gets three: the loop of the batch `Append` pushes the second
and then writes the third over it. -/
theorem log_with_gap :
    ∃ s, (cluster 3).Reach Runs.Sys.anyStep s ∧
      (s.node 0).log.memoryLog.map (·.index) = [1, 2, 3] ∧
      (s.node 2).log.memoryLog.map (·.index) = [1, 3] := by
  let s := (cluster 3).run Runs.Sys.anyStep start3 (elect 0 1 0 ++ write 0 0 ['/', 'a'] ++
    call 0 2 1 ++ [.aeReturn 1] ++ write 0 1 ['/', 'b'] ++ write 0 2 ['/', 'c'] ++ call 0 2 2)
  exact ⟨s, Runs.Sys.reach_run reach_start3 (by decide +kernel), by decide +kernel,
    by decide +kernel⟩

end RaftFS
