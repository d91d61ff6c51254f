import RaftFS.Proofs.Batches

/-!
# Requests with entries, and whole runs

The steps in which logs and commit indices move between nodes: a response taken by the leader
(`Linked.aeTake`) and a request handled (`Linked.aeHandle`). With them every run whose steps meet
the conditions is linked to a run of the winners (`reach_linked`).
-/

namespace RaftFS

variable {n : ℕ}

open Ballots Cluster

section Steps

variable {durable following : Prop} {t : LCore n} {s s' : Cluster n}

theorem AELink.getElem? {c : AppendEntriesCall n} (h : AELink durable following t c) {e : Entry}
    (he : e ∈ c.req.entries) : 0 < e.index ∧ e.index ≤ c.srcLog.length ∧
      (t.canon c.req.term)[e.index - 1]? = some e := by
  rw [h.entries] at he
  have hm := List.mem_of_mem_drop he
  have hg := h.numbered.getElem?_of_mem hm
  obtain ⟨hlt, -⟩ := List.getElem?_eq_some_iff.1 hg
  have hi := h.numbered _ _ hg
  obtain ⟨m, hm⟩ := h.srcLog
  refine ⟨by omega, by omega, ?_⟩
  rw [← hm, List.getElem?_append_left hlt]
  exact hg

/-- The entry that becomes the last committed is of the leader's own term, and a quorum has stored
the log up to it. -/
theorem Linked.commits (hd : durable) (hl : Linked durable following t s) {a : Action n}
    (hg : s.Durable a) {k : ℕ} {c : AppendEntriesCall n} {resp : AppendEntriesResponse}
    (hc : s.aeCalls[k]? = some c)
    (ha : a = .aeReturn k ∧ c.phase = .handled resp ∨ a = .aeNotConnected k ∧ resp = {})
    (ht : resp.term = (s.node c.src).currentTerm) (hs : resp.success = true) {e : Entry}
    (he : ((s.node c.src).broughtToQuorum c.dst c.req).getLast? = some e) :
    t.Chosen Entry.term IsQuorum (t.cur c.src) e.index ∧
      t.log c.src = t.canon (t.cur c.src) := by
  rcases ha with ⟨rfl, hp⟩ | ⟨-, rfl⟩
  swap
  · simp at hs
  have hr : resp ∈ c.phase.resp? := by
    rw [hp]
    rfl
  have hx := hl.node c.src
  have hAE := hl.ae c (List.mem_of_getElem? hc)
  -- the request is of the term its sender is still in
  have hreq : c.req.term = t.cur c.src := by
    have h1 := hl.run.inv.wonBy_le hAE.won
    have h2 := hAE.resp_term resp hr hs
    rw [ht, hx.cur] at h2
    omega
  obtain ⟨hterm, hack⟩ := hg c hc resp hr ht hs e he
  obtain ⟨hmem, hq⟩ := List.mem_filter.1 (List.mem_of_getLast? he)
  simp only [decide_eq_true_eq] at hq
  obtain ⟨h0, -, hget⟩ := hAE.getElem? hmem
  rw [hreq] at hget
  refine ⟨⟨⟨h0, e, hget, hterm.trans hx.cur⟩, _, hq.2, fun v hv => ?_⟩,
    hl.run.inv.lead_log (hreq ▸ hAE.won)⟩
  obtain ⟨c', hc', -, rfl, hct, ⟨resp', hr', hs'⟩, he'⟩ := hack v hv
  have hAE' := hl.ae c' hc'
  have hst := hAE'.stored hd resp' hr' hs' (List.ne_nil_of_mem he')
  rw [hct, hx.cur] at hst
  exact ⟨_, hst, (hAE'.getElem? he').2.1⟩

theorem Linked.aeTake (hfd : following → durable) (hl : Linked durable following t s) {a : Action n}
    (hg : durable → s.Durable a) {k : ℕ} {c : AppendEntriesCall n} {resp : AppendEntriesResponse}
    {nd : Node n} {commit : Option ℕ} {next : Node.Next} (hc : s.aeCalls[k]? = some c)
    (ha : a = .aeReturn k ∧ c.phase = .handled resp ∨ a = .aeNotConnected k ∧ resp = {})
    (hap : (s.node c.src).onAppendEntriesResponse c.dst c.req resp = some (nd, commit, next)) :
    ∃ t', Linked durable following t' ((s.setNode c.src nd).log
      (commit.map fun N => .committed c.src nd.currentTerm N nd.log.memoryLog)) := by
  have hx := hl.node c.src
  rcases Node.onAppendEntriesResponse_cases hap with
    ⟨ht, hs, -, hr⟩ | ⟨hlt, rfl, rfl⟩ | ⟨rfl, ni, rfl, -⟩
  · obtain ⟨pending, log, fs, rfl, hm, -, hcase⟩ := Node.recordAck_cases hr
    rcases hcase with ⟨rfl, rfl⟩ | ⟨e, he, rfl, hset, hle⟩
    · exact ⟨t, hl.stay rfl (hx.congr rfl rfl rfl rfl hx.settled) hl.ae hl.rv fun ev h => .inl h⟩
    · have hcommit := fun hd => hl.commits hd (hg hd) hc ha ht hs he
      refine ⟨t, hl.stay rfl (hx.congr rfl hm rfl rfl fun hf => ?_) hl.ae hl.rv fun ev hev => ?_⟩
      · obtain ⟨hch, hlog⟩ := hcommit (hfd hf)
        refine .inr ⟨_, _, hch, le_rfl, hset.le, ?_⟩
        rw [hlog]
        exact List.take_prefix _ _
      · simp only [log_history, Option.map_some, Option.toList_some, List.singleton_append,
          List.mem_cons, setNode_history] at hev
        rcases hev with rfl | hev
        · refine .inr fun hd => ?_
          obtain ⟨hch, hlog⟩ := hcommit hd
          rw [← hx.cur] at hch hlog
          refine ⟨hm ▸ hx.numbered, hch, ?_⟩
          rw [hm, hx.log, hlog]
          exact List.take_prefix _ _
        · exact .inl hev
  · have hlt' : t.cur c.src < resp.term := hx.cur ▸ hlt
    have hstep : Core.Step Entry.term IsQuorum durable t (t.advance c.src resp.term) :=
      .advance _ _ hlt'.le
    refine ⟨_, hl.step hfd hstep rfl ?_ (fun y hy => ?_) (fun c hc => .inl (hl.ae c hc)) hl.rv
      (fun ev h => .inl h)⟩
    · refine NodeLink.raise hfd hl (hstep.le hl.run.inv) rfl ?_ rfl ?_ rfl hx.vote
        (.inl ⟨hlt, rfl⟩)
      · simp [Core.advance, hlt'.le]
      · exact (max_eq_right hlt.le).symm
    · exact ⟨by simp [Core.advance, hy], rfl, rfl, id⟩
  · exact ⟨t, hl.stay rfl (hx.congr rfl rfl rfl rfl hx.settled) hl.ae hl.rv fun ev h => .inl h⟩

theorem Linked.accepts_role (hl : Linked durable following t s) {c : AppendEntriesCall n}
    (hAE : AELink durable following t c) {resp : AppendEntriesResponse} {role : Role}
    {log log' : LogManager} {fs : FSThread}
    (ha : Node.Accepts c.req resp (s.node c.dst) role log log' fs) :
    ¬ t.WonBy c.dst c.req.term ∧ role ≠ .kLeader ∧ role ≠ .kCandidate := by
  have hx := hl.node c.dst
  have hnw : ¬ t.WonBy c.dst c.req.term :=
    fun h => c.ne (hl.run.inv.wonBy_uniq hAE.won h)
  refine ⟨hnw, ?_⟩
  rw [ha.role]
  split_ifs with hif
  · exact ⟨by simp, by simp⟩
  · rw [not_or] at hif
    refine ⟨fun hlead => ?_, hif.2⟩
    have heq : c.req.term = t.cur c.dst := by
      have := ha.term_le
      rw [← hx.cur]
      omega
    exact hnw (heq ▸ hx.lead.1 hlead)

/-- The commit index a node takes from a request is of a log that a quorum has stored: either its
log is now the sender's, or the logs agree at that index. -/
theorem Linked.follow_settled (hl : Linked durable following t s) (hf : following) {k : ℕ}
    (hg : s.Following (.aeHandle k)) {c : AppendEntriesCall n} (hc : s.aeCalls[k]? = some c)
    (ht : (s.node c.dst).currentTerm ≤ c.req.term)
    (hq : (s.node c.dst).storesAt c.req = none)
    (hlt : (s.node c.dst).log.getLastCommitIndex < c.req.leaderCommitIndex)
    (hle : c.req.leaderCommitIndex ≤ (s.node c.dst).log.getLastLogIndex) :
    SettledIn t c.req.term c.req.leaderCommitIndex (s.node c.dst).log.memoryLog := by
  have hx := hl.node c.dst
  have hAE := hl.ae c (List.mem_of_getElem? hc)
  rcases hAE.commit hf with h0 | ⟨T, N, hch, hT, hcN, hh⟩
  · exact .inl h0
  refine .inr ⟨T, N, hch, hT, hcN, ?_⟩
  have hlen := hcN.trans hch.1.le
  have hsrc := hh.length_le hlen
  have hle' := hle
  rw [LogManager.getLastLogIndex_eq hx.numbered] at hle'
  have hlx := List.getElem?_eq_getElem (l := (s.node c.dst).log.memoryLog)
    (i := c.req.leaderCommitIndex - 1) (by omega)
  have hsx := List.getElem?_eq_getElem (l := c.srcLog) (i := c.req.leaderCommitIndex - 1)
    (by omega)
  have hterm := hg c hc hq ht hlt hle _ hlx _ hsx
  have hsl : t.Sanctioned Entry.term (s.node c.dst).log.memoryLog :=
    hx.log ▸ hl.run.inv.log_ok c.dst
  have hss : t.Sanctioned Entry.term c.srcLog :=
    (hl.run.inv.canon_ok hAE.won.won).of_isPrefix Entry.term hAE.srcLog
  have htake := hsl.take_eq Entry.term hss hlx hsx hterm
  rw [Nat.sub_add_cancel (by omega)] at htake
  exact hh.of_take_eq hlen htake.symm

/-- A request accepted keeps the link, whether the winners store something of the sender's log or
only go on to its term. -/
theorem Linked.accept (hfd : following → durable) (hl : Linked durable following t s) {k : ℕ}
    {c : AppendEntriesCall n} (hc : s.aeCalls[k]? = some c) {resp : AppendEntriesResponse}
    {role : Role} {leader : Option (Fin n)} {pool : Finset (Fin n)} {log log' : LogManager}
    {fs : FSThread} (ha : Node.Accepts c.req resp (s.node c.dst) role log log' fs) {t' : LCore n}
    (hstep : Core.Step Entry.term IsQuorum durable t t')
    (hcur : t'.cur = Function.update t.cur c.dst c.req.term)
    (hlog : ∀ y, y ≠ c.dst → t'.log y = t.log y) (hvote : t'.vote = t.vote) (hwon : t'.won = t.won)
    (hlogx : log'.memoryLog = t'.log c.dst) (hnumx : Numbered log'.memoryLog)
    (hset : following → log' ≠ log →
      SettledIn t c.req.term c.req.leaderCommitIndex log'.memoryLog)
    (hack : durable → resp.success = true → c.req.entries ≠ [] →
      t'.ack c.dst c.req.term c.srcLog.length) :
    Linked durable following t' ((s.setNode c.dst { s.node c.dst with
      currentTerm := c.req.term, currentRole := role, leaderId := leader, votePool := pool
      log := log', fsThread := fs }).setAECall k { c with phase := .handled resp }) := by
  have hx := hl.node c.dst
  have hAE := hl.ae c (List.mem_of_getElem? hc)
  obtain ⟨hnw, hnl, hnc⟩ := hl.accepts_role hAE ha
  have hlast := (Node.storeEntries_laid ha.term_le ha.stored).1
  have hle := hstep.le hl.run.inv
  have hcurx : t'.cur c.dst = c.req.term := by rw [hcur, Function.update_self]
  refine hl.step hfd hstep rfl ⟨hcurx.symm, hlogx, hvote ▸ hx.vote, hnumx,
    fun h => absurd h hnc, ?_, fun hf => ?_⟩ (fun y hy => ⟨?_, hlog y hy, by rw [hvote], ?_⟩)
    (forall_set (fun c hc => .inl (hl.ae c hc)) (.inr ?_)) hl.rv fun ev h => .inl h
  · rw [hcurx, Core.WonBy, hwon]
    exact iff_of_false hnl hnw
  · rw [hcurx]
    by_cases heq : log' = log
    · have hd := hfd hf
      have h := (run_strict hd hl.run).settled_step quorums_meet (hx.settled hf)
        (by rwa [eq_true hd] at hstep)
      rw [heq, hlast]
      exact hcurx ▸ h
    · rw [(ha.commit.resolve_left heq).1, ← hlogx]
      exact settledIn_mono (hfd hf) hl.run hle (hset hf heq) le_rfl
  · rw [hcur, Function.update_of_ne hy]
  · rw [Core.WonBy, hwon]
    exact id
  · exact { hAE.mono hfd hl.run hle with
      resp_term := by
        rintro _ ⟨⟩ -
        exact ha.resp_term ▸ ha.term_le
      stored := by
        rintro hd _ ⟨⟩ hs he
        exact hack hd hs he }

theorem Linked.aeHandle (hfd : following → durable) (hl : Linked durable following t s) {k : ℕ}
    (hg : s.Matching (.aeHandle k)) (hgd : durable → s.Durable (.aeHandle k))
    (hgf : following → s.Following (.aeHandle k)) {c : AppendEntriesCall n}
    (hc : s.aeCalls[k]? = some c) {nd : Node n} {resp : AppendEntriesResponse}
    (hap : (s.node c.dst).onAppendEntries c.req = some (nd, resp)) : ∃ t',
    Linked durable following t'
      ((s.setNode c.dst nd).setAECall k { c with phase := .handled resp }) := by
  have hx := hl.node c.dst
  have hAE := hl.ae c (List.mem_of_getElem? hc)
  have hlaid := Node.onAppendEntries_laid hap
  rcases Node.onAppendEntries_cases hap with ⟨-, rfl, rfl⟩ |
    ⟨role, leader, pool, log, log', fs, ha, rfl⟩
  · refine ⟨t, hl.stay rfl hx (forall_set hl.ae { hAE with resp_term := ?_, stored := ?_ }) hl.rv
      fun ev h => .inl h⟩
    · rintro _ ⟨⟩ h
      simp at h
    · rintro _ _ ⟨⟩ h
      simp at h
  obtain ⟨hnw, -, -⟩ := hl.accepts_role hAE ha
  have hT : t.cur c.dst ≤ c.req.term := hx.cur ▸ ha.term_le
  have hnum := hx.numbered
  have hsl : t.Sanctioned Entry.term (s.node c.dst).log.memoryLog :=
    hx.log ▸ hl.run.inv.log_ok c.dst
  have hss : t.Sanctioned Entry.term c.srcLog :=
    (hl.run.inv.canon_ok hAE.won.won).of_isPrefix Entry.term hAE.srcLog
  rcases hlaid with ⟨q, hq, -, hprev, hlaid⟩ | ⟨hq, hsame, hsucc⟩
  · have hm := hg c hc q hq
    have hdur := fun hd => hgd hd c hc q hq
    rw [LogManager.getLastLogIndex_eq hnum] at hprev
    rw [hAE.entries] at hlaid hm hdur
    obtain rfl := hlaid.place hnum hAE.numbered hprev
    obtain ⟨hpre, hall⟩ := laid_isPrefix hsl hss hlaid hm
    simp only at hpre hall
    have hcan := hpre.trans hAE.srcLog
    have htake : log'.memoryLog = (t.canon c.req.term).take log'.memoryLog.length :=
      List.prefix_iff_eq_take.1 hcan
    refine ⟨_, hl.accept hfd hc ha (.store c.dst c.req.term log'.memoryLog.length hAE.won.won hnw hT
      hcan.length_le fun hd => ?_) rfl (fun y hy => ?_) rfl rfl ?_ (hAE.numbered.of_isPrefix hpre)
      (fun hf _ => ?_) fun hd _ _ => ?_⟩
    · obtain ⟨heq, hpre'⟩ := hall (hdur hd)
      unfold Core.Lossless
      rw [← htake, ← hx.log, heq]
      exact hpre'
    · simp [Core.store, hy]
    · simp only [Core.store, Function.update_self]
      exact htake
    · rw [(hall (hdur (hfd hf))).1]
      exact hAE.commit hf
    · rw [(hall (hdur hd)).1]
      exact .inl ⟨rfl, rfl, rfl⟩
  · simp only at hsame
    refine ⟨_, hl.accept hfd hc ha (.advance c.dst c.req.term hT) rfl (fun y hy => rfl) rfl rfl
      (hsame.trans hx.log) (hsame ▸ hnum) (fun hf hne => ?_) fun _ hs he => absurd (hsucc hs) he⟩
    obtain ⟨-, hlt, hle, -⟩ := ha.commit.resolve_left hne
    obtain rfl : log = (s.node c.dst).log := by
      rcases (Node.storeEntries_laid ha.term_le ha.stored).2 with ⟨q, hq', -⟩ | ⟨-, h, -⟩
      · rw [hq] at hq'
        simp at hq'
      · exact h
    rw [hsame]
    exact hl.follow_settled hf (hgf hf) hc ha.term_le hq hlt hle

end Steps

section Runs

variable {durable following : Prop} {s : Cluster n}

theorem linked_init (env : Fin n → Ptr → Alloc) (junk : Fin n → Fin n → ℕ) :
    Linked durable following Core.start (Cluster.init env junk) where
  run := .start
  node x := ⟨rfl, rfl, rfl, .nil, fun h => by simp [Cluster.init, Node.init] at h,
    iff_of_false (by simp [Cluster.init, Node.init]) (by simp [Core.WonBy, Core.start]),
    fun _ => .inl rfl⟩
  ae c hc := by simp [Cluster.init] at hc
  rv c hc := by simp [Cluster.init] at hc
  event ev hev := by simp [Cluster.init] at hev

/-- A run whose steps meet the conditions is linked to a run of the winners. -/
theorem reach_linked {G : Runs.Guard (Cluster n) (Action n)} (hm : ∀ s a, G s a → s.Matching a)
    (hd : durable → ∀ s a, G s a → s.Durable a) (hf : following → ∀ s a, G s a → s.Following a)
    (hfd : following → durable) (h : (cluster n).Reach G s) :
    ∃ t, Linked durable following t s := by
  refine reach_inv (I := fun s => ∃ t, Linked durable following t s)
    (fun env junk => ⟨_, linked_init env junk⟩) (fun s t hI hq => hI.imp fun _ hl => hl.quiet hq)
    (fun s a s' hr hg hI hmv => ?_)
    (fun s x r h hI hr => hI.imp fun _ hl => hl.callAppendEntries h hr)
    (fun s x r h hI hr => hI.imp fun _ hl => hl.callRequestVote h hr) h
  obtain ⟨t, hl⟩ := hI
  have hv := reach_votes hr
  have hE := reach_elections (fun s a hg => (hm s a hg).countsOwnTerm) hr
  have hgm := hm s a hg
  cases hmv with
  | timeout => exact hl.timeout hfd hv _
  | aeHandle hc hp hap =>
    exact hl.aeHandle hfd hgm (fun h => hd h s _ hg) (fun h => hf h s _ hg) hc hap
  | aeTake hc ha hap => exact hl.aeTake hfd (fun h => hd h s _ hg) hc ha hap
  | rvHandle hc => exact hl.rvHandle hfd hv hc
  | rvTake hc ha hap => exact hl.rvTake hfd hv hE hgm.countsOwnTerm hc ha hap
  | append he => exact hl.append hfd hgm he

theorem linked_of_matching (h : (cluster n).Reach Matching s) : ∃ t, Linked False False t s :=
  reach_linked (fun _ _ hg => hg) False.elim False.elim id h

theorem linked_of_committing (h : (cluster n).Reach Committing s) : ∃ t, Linked True False t s :=
  reach_linked (fun _ _ hg => hg.1) (fun _ _ _ hg => hg.2) False.elim False.elim h

theorem linked_of_applying (h : (cluster n).Reach Applying s) : ∃ t, Linked True True t s :=
  reach_linked (fun _ _ hg => hg.1) (fun _ _ _ hg => hg.2.1) (fun _ _ _ hg => hg.2.2) id h

end Runs

end RaftFS
