import RaftFS.Lib.Completeness
import RaftFS.Proofs.Conditions

/-!
# The cluster's logs are a winner's logs

A cluster's state is linked to a state of `Ballots`, whose runs have the logs written by the
winners of the terms: the nodes' terms, logs and votes are the same, a leader is the winner of its
term, and the calls are of a winner's log as it was. Each kind of step keeps the link where its
conditions hold, so what is shown of the logs there is shown of the cluster's.
-/

namespace RaftFS

variable {n : ℕ}

open Ballots Cluster

/-- The terms, logs, votes and winners of a cluster of `n`. -/
abbrev LCore (n : ℕ) := Core (Fin n) Entry

/-- Up to `c`, `l` is a log that a quorum has stored, of a term no later than `U`. -/
abbrev SettledIn (t : LCore n) (U c : ℕ) (l : List Entry) : Prop :=
  Core.SettledIn Entry.term IsQuorum t U c l

section Links

variable (durable following : Prop) (t : LCore n)

/-- What a node has to do with the winners. -/
structure NodeLink (x : Fin n) (nd : Node n) : Prop where
  cur : nd.currentTerm = t.cur x
  log : nd.log.memoryLog = t.log x
  vote : nd.voteFor = t.vote x
  numbered : Numbered nd.log.memoryLog
  bid : nd.currentRole = .kCandidate → t.bid x (t.cur x) = some (t.log x)
  lead : nd.currentRole = .kLeader ↔ t.WonBy x (t.cur x)
  settled : following → SettledIn t (t.cur x) nd.log.lastCommitedIndex (t.log x)

/-- What a call of `AppendEntries` has to do with its sender's term. -/
structure AELink (c : AppendEntriesCall n) : Prop where
  won : t.WonBy c.src c.req.term
  srcLog : c.srcLog <+: t.canon c.req.term
  numbered : Numbered c.srcLog
  entries : c.req.entries = c.srcLog.drop c.req.prevLogIndex
  resp_term : ∀ resp ∈ c.phase.resp?, resp.success = true → resp.term ≤ c.req.term
  stored : durable → ∀ resp ∈ c.phase.resp?, resp.success = true → c.req.entries ≠ [] →
    t.ack c.dst c.req.term c.srcLog.length
  commit : following → SettledIn t c.req.term c.req.leaderCommitIndex c.srcLog

/-- A call of `RequestVote` is for the log its sender stands with. -/
def RVLink (c : RequestVoteCall n) : Prop :=
  ∃ C, t.bid c.src c.req.term = some C ∧ c.req.lastLogIndex = C.length ∧
    c.req.lastLogTerm = lastTerm Entry.term C

/-- What is on record is a win, a commit of a log that a quorum has stored, or an entry of one. -/
def EventLink : Event n → Prop
  | .becameLeader x T l => Numbered l ∧ ∃ b ∈ t.won, b.term = T ∧ b.winner = x ∧ b.log = l
  | .committed _ T N l => durable → Numbered l ∧ t.Chosen Entry.term IsQuorum T N ∧ t.Held T N l
  | .applied _ i e _ => following → 0 < i ∧ ∃ T N, t.Chosen Entry.term IsQuorum T N ∧ i ≤ N ∧
      (t.canon T)[i - 1]? = some e

/-- A cluster's state and a state of a run of `Ballots` are linked. -/
structure Linked (s : Cluster n) : Prop where
  run : Core.Run Entry.term IsQuorum durable t
  node : ∀ x, NodeLink following t x (s.node x)
  ae : ∀ c ∈ s.aeCalls, AELink durable following t c
  rv : ∀ c ∈ s.rvCalls, RVLink t c
  event : ∀ ev ∈ s.history, EventLink durable following t ev

end Links

section Growth

variable {durable following : Prop} {t t' : LCore n}

theorem run_strict (hd : durable) (h : Core.Run Entry.term IsQuorum durable t) :
    Core.Run Entry.term IsQuorum True t := by
  rwa [eq_true hd] at h

theorem chosen_mono (hd : durable) (hr : Core.Run Entry.term IsQuorum durable t) (h : Core.Le t t')
    {T N : ℕ} (hc : t.Chosen Entry.term IsQuorum T N) : t'.Chosen Entry.term IsQuorum T N :=
  hc.mono h ((run_strict hd hr).won_of_chosen quorums_meet hc)

theorem settledIn_mono (hd : durable) (hr : Core.Run Entry.term IsQuorum durable t)
    (h : Core.Le t t') {U U' c : ℕ} {l : List Entry} (hs : SettledIn t U c l) (hU : U ≤ U') :
    SettledIn t' U' c l :=
  (run_strict hd hr).settledIn_mono quorums_meet h hs hU

theorem NodeLink.mono (hfd : following → durable) (hr : Core.Run Entry.term IsQuorum durable t)
    (h : Core.Le t t') {x : Fin n} {nd : Node n} (hl : NodeLink following t x nd)
    (hcur : t'.cur x = t.cur x) (hlog : t'.log x = t.log x) (hvote : t'.vote x = t.vote x)
    (hwon : t'.WonBy x (t.cur x) → t.WonBy x (t.cur x)) : NodeLink following t' x nd where
  cur := hcur ▸ hl.cur
  log := hlog ▸ hl.log
  vote := hvote ▸ hl.vote
  numbered := hl.numbered
  bid hc := by
    rw [hcur, hlog]
    exact h.bid (hl.bid hc)
  lead := by
    rw [hcur, hl.lead]
    exact ⟨h.wonBy, hwon⟩
  settled hf := by
    rw [hcur, hlog]
    exact settledIn_mono (hfd hf) hr h (hl.settled hf) le_rfl

theorem NodeLink.congr {x : Fin n} {nd nd' : Node n} (hl : NodeLink following t x nd)
    (hc : nd'.currentTerm = nd.currentTerm) (hlog : nd'.log.memoryLog = nd.log.memoryLog)
    (hv : nd'.voteFor = nd.voteFor) (hr : nd'.currentRole = nd.currentRole)
    (hs : following → SettledIn t (t.cur x) nd'.log.lastCommitedIndex (t.log x)) :
    NodeLink following t x nd' where
  cur := hc.trans hl.cur
  log := hlog.trans hl.log
  vote := hv.trans hl.vote
  numbered := hlog ▸ hl.numbered
  bid := hr ▸ hl.bid
  lead := hr ▸ hl.lead
  settled := hs

theorem AELink.mono (hfd : following → durable) (hr : Core.Run Entry.term IsQuorum durable t)
    (h : Core.Le t t') {c : AppendEntriesCall n} (hl : AELink durable following t c) :
    AELink durable following t' c where
  won := h.wonBy hl.won
  srcLog := hl.srcLog.trans (h.canon hl.won.won)
  numbered := hl.numbered
  entries := hl.entries
  resp_term := hl.resp_term
  stored hd resp hm hs he := h.ack (hl.stored hd resp hm hs he)
  commit hf := settledIn_mono (hfd hf) hr h (hl.commit hf) le_rfl

theorem RVLink.mono (h : Core.Le t t') {c : RequestVoteCall n} (hl : RVLink t c) : RVLink t' c :=
  let ⟨C, hb, hC⟩ := hl
  ⟨C, h.bid hb, hC⟩

theorem EventLink.mono (hfd : following → durable) (hr : Core.Run Entry.term IsQuorum durable t)
    (h : Core.Le t t') {ev : Event n} (hl : EventLink durable following t ev) :
    EventLink durable following t' ev := by
  cases ev with
  | becameLeader x T l =>
    obtain ⟨hn, b, hb, hl⟩ := hl
    exact ⟨hn, b, h.won.subset hb, hl⟩
  | committed x T N l =>
    intro hd
    obtain ⟨hn, hc, hh⟩ := hl hd
    have hw := (run_strict hd hr).won_of_chosen quorums_meet hc
    exact ⟨hn, chosen_mono hd hr h hc, (Core.Held.mono h hw hc.1.le).2 hh⟩
  | applied x i e rt =>
    intro hf
    obtain ⟨hi, T, N, hc, hN, he⟩ := hl hf
    have hw := (run_strict (hfd hf) hr).won_of_chosen quorums_meet hc
    refine ⟨hi, T, N, chosen_mono (hfd hf) hr h hc, hN, ?_⟩
    obtain ⟨m, hm⟩ := h.canon hw
    have := hc.1.le
    rw [← hm, List.getElem?_append_left (by omega)]
    exact he

/-- A step of the winners, and what it takes to stay linked. -/
theorem Linked.step (hfd : following → durable) {s s' : Cluster n}
    (hl : Linked durable following t s) (hs : Core.Step Entry.term IsQuorum durable t t')
    {x : Fin n} {nd : Node n} (hn : s'.node = Function.update s.node x nd)
    (hx : NodeLink following t' x nd)
    (hy : ∀ y, y ≠ x → t'.cur y = t.cur y ∧ t'.log y = t.log y ∧ t'.vote y = t.vote y ∧
      (t'.WonBy y (t.cur y) → t.WonBy y (t.cur y)))
    (hae : ∀ c ∈ s'.aeCalls, AELink durable following t c ∨ AELink durable following t' c)
    (hrv : ∀ c ∈ s'.rvCalls, RVLink t c)
    (hev : ∀ ev ∈ s'.history, ev ∈ s.history ∨ EventLink durable following t' ev) :
    Linked durable following t' s' where
  run := hl.run.step hs
  node y := by
    have hle := hs.le hl.run.inv
    rw [hn, Function.update_apply]
    split_ifs with h
    · exact h ▸ hx
    · obtain ⟨h1, h2, h3, h4⟩ := hy y h
      exact (hl.node y).mono hfd hl.run hle h1 h2 h3 h4
  ae c hc := (hae c hc).elim (fun h => h.mono hfd hl.run (hs.le hl.run.inv)) id
  rv c hc := (hrv c hc).mono (hs.le hl.run.inv)
  event ev hv := (hev ev hv).elim
    (fun h => (hl.event ev h).mono hfd hl.run (hs.le hl.run.inv)) id

end Growth

section Steps

variable {durable following : Prop} {t : LCore n} {s s' : Cluster n}

theorem Linked.stay (hl : Linked durable following t s) {x : Fin n} {nd : Node n}
    (hn : s'.node = Function.update s.node x nd) (hx : NodeLink following t x nd)
    (hae : ∀ c ∈ s'.aeCalls, AELink durable following t c) (hrv : ∀ c ∈ s'.rvCalls, RVLink t c)
    (hev : ∀ ev ∈ s'.history, ev ∈ s.history ∨ EventLink durable following t ev) :
    Linked durable following t s' where
  run := hl.run
  node := hn ▸ forall_update hl.node hx
  ae := hae
  rv := hrv
  event ev hv := (hev ev hv).elim (hl.event ev) id

theorem Linked.applies (hl : Linked durable following t s) {ev : Event n} (h : Applies s ev) :
    EventLink durable following t ev := by
  obtain ⟨x, i, e, rt, rfl, hi, he⟩ := h
  intro hf
  have hx := hl.node x
  obtain ⟨h0, he⟩ := (LogManager.getEntry_eq_some_iff hx.numbered).1 he
  have hic := hi.trans LogManager.getLastCommitIndex_le_last
  rcases hx.settled hf with h0' | ⟨T, N, hc, -, hcN, hh⟩
  · omega
  · refine ⟨h0, T, N, hc, hic.trans hcN, ?_⟩
    rw [← hh.getElem?_eq (hcN.trans hc.1.le) (by omega), ← hx.log]
    exact he

theorem Linked.quiet (hl : Linked durable following t s) (hq : Quiet s s') :
    Linked durable following t s' where
  run := hl.run
  node x := by
    have hx := hl.node x
    have hc := hq.core x
    exact hx.congr hc.currentTerm (hc.log ▸ rfl) hc.voteFor hc.currentRole (hc.log ▸ hx.settled)
  ae c hc := by
    obtain ⟨c', hc', ph, rfl, hph⟩ := hq.aeCalls c hc
    have h := hl.ae c' hc'
    exact { h with
      resp_term := fun resp hr => h.resp_term resp (hph ▸ hr)
      stored := fun hd resp hr => h.stored hd resp (hph ▸ hr) }
  rv c hc := by
    obtain ⟨c', hc', ph, rfl, -⟩ := hq.rvCalls c hc
    exact hl.rv c' hc'
  event ev hv := (hq.history ev hv).elim (hl.event ev) hl.applies

theorem not_wonBy_of_lt (hl : Linked durable following t s) {x : Fin n} {U : ℕ}
    (hU : t.cur x < U) : ¬ t.WonBy x U := by
  intro h
  have := hl.run.inv.wonBy_le h
  omega

theorem Linked.timeout (hfd : following → durable) (hl : Linked durable following t s)
    (hv : Votes s) (x : Fin n) : ∃ t',
    Linked durable following t' (s.setNode x ((s.node x).startLeaderElection x)) := by
  have hx := hl.node x
  have hnone := hv.not_voted_next x
  have hU : t.cur x < t.cur x + 1 := Nat.lt_succ_self _
  have hstep : Core.Step Entry.term IsQuorum durable t (t.stand x (t.cur x + 1)) := .stand x _ hU
  have hle := hstep.le hl.run.inv
  refine ⟨_, hl.step hfd hstep rfl ?_ (fun y hy => ?_) (fun c hc => .inl (hl.ae c hc)) hl.rv
    (fun ev h => .inl h)⟩
  · rw [Node.startLeaderElection_eq hnone]
    have hcur : (t.stand x (t.cur x + 1)).cur x = t.cur x + 1 := by simp [Core.stand]
    refine ⟨?_, hx.log, ?_, hx.numbered, fun _ => ?_, ?_, fun hf => ?_⟩
    · rw [hcur, ← hx.cur]
    · simp only [Core.stand, Function.update_self, hx.cur, hx.vote]
    · simp [Core.stand]
    · rw [hcur]
      refine iff_of_false (by simp) fun h => not_wonBy_of_lt hl hU ?_
      exact h
    · rw [hcur]
      exact settledIn_mono (hfd hf) hl.run hle (hx.settled hf) hU.le
  · exact ⟨by simp [Core.stand, hy], rfl, by simp [Core.stand, hy], id⟩

/-- A node that hears of the term `U` follows, if it had not reached it. -/
theorem NodeLink.raise (hfd : following → durable) (hl : Linked durable following t s)
    {t' : LCore n} (hle : Core.Le t t') (hwon : t'.won = t.won) {x : Fin n} {nd : Node n} {U : ℕ}
    (hcur : t'.cur x = max (t.cur x) U) (htlog : t'.log x = t.log x)
    (hc : nd.currentTerm = max (s.node x).currentTerm U) (hlog : nd.log = (s.node x).log)
    (hv : nd.voteFor = t'.vote x)
    (hr : (s.node x).currentTerm < U ∧ nd.currentRole = .kFollower ∨
      U ≤ (s.node x).currentTerm ∧ nd.currentRole = (s.node x).currentRole) :
    NodeLink following t' x nd := by
  have hx := hl.node x
  have hmax : t.cur x ≤ max (t.cur x) U := le_max_left _ _
  rw [hx.cur] at hc hr
  refine ⟨hc.trans hcur.symm, ?_, hv, hlog ▸ hx.numbered, fun hcand => ?_, ?_, fun hf => ?_⟩
  · rw [hlog, htlog, hx.log]
  · rcases hr with ⟨-, hr⟩ | ⟨hle', hr⟩
    · rw [hr] at hcand
      simp at hcand
    · rw [hcur, max_eq_left hle', htlog]
      exact hle.bid (hx.bid (hr ▸ hcand))
  · rw [hcur, Core.WonBy, hwon]
    rcases hr with ⟨hlt, hr⟩ | ⟨hle', hr⟩
    · rw [hr, max_eq_right hlt.le]
      exact iff_of_false (by simp) (not_wonBy_of_lt hl hlt)
    · rw [hr, max_eq_left hle']
      exact hx.lead
  · rw [hcur, htlog, hlog]
    exact settledIn_mono (hfd hf) hl.run hle (hx.settled hf) hmax

theorem Linked.rvHandle (hfd : following → durable) (hl : Linked durable following t s)
    (hv : Votes s) {k : ℕ} {c : RequestVoteCall n} (hc : s.rvCalls[k]? = some c)
    {ph : Phase ReqVoteResponse} : ∃ t', Linked durable following t'
      ((s.setNode c.dst ((s.node c.dst).onRequestVote c.req).1).setRVCall k
        { c with phase := ph }) := by
  have hmem := List.mem_of_getElem? hc
  have hx := hl.node c.dst
  have hrv : ∀ c' ∈ s.rvCalls.set k { c with phase := ph }, RVLink t c' :=
    forall_set hl.rv (hl.rv c hmem)
  obtain ⟨role, leader, pool, vote, he, hrole, hvote⟩ :=
    (s.node c.dst).onRequestVote_cases c.req
  rw [he]
  have hrole' : (s.node c.dst).currentTerm < c.req.term ∧ role = .kFollower ∨
      c.req.term ≤ (s.node c.dst).currentTerm ∧ role = (s.node c.dst).currentRole :=
    hrole.imp_right fun h => ⟨h.1, h.2.1⟩
  rcases hvote with ⟨hg, -, rfl⟩ | ⟨-, rfl⟩
  · -- the vote is for the log the candidate stands with
    obtain ⟨C, hb, hi, ht⟩ := hl.rv c hmem
    have hcand := hv.candidate c hmem
    have hu : UpToDate Entry.term (t.log c.dst) C := by
      refine ⟨?_, ?_⟩
      · rw [← hi, ← hx.log, ← LogManager.getLastLogIndex_eq hx.numbered]
        exact hg.1
      · rw [← ht, ← hx.log]
        exact hg.2.1
    have hfree : t.vote c.dst c.req.term = none ∨ t.vote c.dst c.req.term = some c.src := by
      rw [← hx.vote, ← hcand]
      exact hg.2.2
    have hstep : Core.Step Entry.term IsQuorum durable t (t.cast c.dst c.src c.req.term) :=
      .cast _ _ _ C hb hfree hu
    refine ⟨_, hl.step hfd hstep rfl ?_ (fun y hy => ?_) (fun c hc => .inl (hl.ae c hc)) hrv
      (fun ev h => .inl h)⟩
    · refine NodeLink.raise hfd hl (hstep.le hl.run.inv) rfl ?_ rfl rfl rfl ?_ hrole'
      · simp [Core.cast]
      · simp [Core.cast, hx.vote, hcand]
    · exact ⟨by simp [Core.cast, hy], rfl, by simp [Core.cast, hy], id⟩
  · have hstep : Core.Step Entry.term IsQuorum durable t
        (t.advance c.dst (max (t.cur c.dst) c.req.term)) := .advance _ _ (le_max_left _ _)
    refine ⟨_, hl.step hfd hstep rfl ?_ (fun y hy => ?_) (fun c hc => .inl (hl.ae c hc)) hrv
      (fun ev h => .inl h)⟩
    · refine NodeLink.raise hfd hl (hstep.le hl.run.inv) rfl ?_ rfl rfl rfl hx.vote hrole'
      simp [Core.advance]
    · exact ⟨by simp [Core.advance, hy], rfl, rfl, id⟩

theorem Linked.rvTake (hfd : following → durable) (hl : Linked durable following t s)
    (hv : Votes s) (hE : Elections s) {a : Action n} (hg : CountsOwnTerm s a) {k : ℕ}
    {c : RequestVoteCall n} {resp : ReqVoteResponse} {nd : Node n} {won : Bool} {next : Node.Next}
    (hc : s.rvCalls[k]? = some c)
    (ha : a = .rvReturn k ∧ c.phase = .handled resp ∨ a = .rvNotConnected k ∧ resp = {})
    (hap : (s.node c.src).onRequestVoteResponse c.src c.dst resp = (nd, won, next)) :
    ∃ t', Linked durable following t' ((s.setNode c.src nd).log
      (if won then some (.becameLeader c.src nd.currentTerm nd.log.memoryLog) else none)) := by
  have hx := hl.node c.src
  have hstay : ∀ role leader pool ni, role = (s.node c.src).currentRole →
      NodeLink following t c.src { s.node c.src with
        currentRole := role, leaderId := leader, votePool := pool, nextIndex := ni } :=
    fun role leader pool ni hr => hx.congr rfl rfl rfl hr hx.settled
  obtain ⟨_, _, role, leader, pool, ni, he, hcase⟩ :=
    (s.node c.src).onRequestVoteResponse_cases c.src c.dst resp
  rw [hap] at he
  obtain ⟨rfl, rfl, -⟩ := Prod.mk.inj he |>.imp id Prod.mk.inj
  rcases hcase with ⟨rfl, hcnt, rfl, rfl, hQ, -⟩ | ⟨rfl, hr, -, -⟩
  swap
  · exact ⟨t, hl.stay rfl (hstay _ _ _ _ hr) hl.ae hl.rv fun ev h => .inl h⟩
  have hvotes : ∀ v ∈ insert c.dst (s.node c.src).votePool,
      t.vote v (t.cur c.src) = some c.src := by
    intro v hvm
    rw [← (hl.node v).vote, ← hx.cur]
    exact hE.counted hv hg hc ha hcnt v hvm
  -- a term won by another has no quorum left, and its own winner is no candidate
  have hnew : ¬ t.Won (t.cur c.src) := by
    rintro ⟨b, hb, ht⟩
    have hw := hl.run.inv.winner_eq quorums_meet hQ hb (by rwa [ht])
    have hlead := hx.lead.2 ⟨b, hb, ht, hw⟩
    rw [hcnt.1] at hlead
    simp at hlead
  have hstep : Core.Step Entry.term IsQuorum durable t
      (t.elect c.src (insert c.dst (s.node c.src).votePool)) :=
    .elect _ _ (hx.bid hcnt.1) hQ hvotes hnew
  have hle := hstep.le hl.run.inv
  have hwon : (t.elect c.src (insert c.dst (s.node c.src).votePool)).WonBy c.src (t.cur c.src) :=
    ⟨_, List.mem_cons_self, rfl, rfl⟩
  refine ⟨_, hl.step hfd hstep rfl ⟨hx.cur, hx.log, hx.vote, hx.numbered, ?_, ?_, fun hf => ?_⟩
    (fun y hy => ⟨rfl, rfl, rfl, ?_⟩) (fun c hc => .inl (hl.ae c hc)) hl.rv fun ev hev => ?_⟩
  · simp
  · exact iff_of_true rfl hwon
  · exact settledIn_mono (hfd hf) hl.run hle (hx.settled hf) le_rfl
  · rintro ⟨b, hb, ht, hby⟩
    rcases List.mem_cons.1 hb with rfl | hb
    · exact absurd hby.symm hy
    · exact ⟨b, hb, ht, hby⟩
  · simp only [if_true, log_history, Option.toList_some, List.singleton_append, List.mem_cons,
      setNode_history] at hev
    rcases hev with rfl | hev
    · exact .inr ⟨hx.numbered, _, List.mem_cons_self, hx.cur.symm, rfl, hx.log.symm⟩
    · exact .inl hev

theorem Linked.append (hfd : following → durable) (hl : Linked durable following t s) {x : Fin n}
    {c : ℕ} {e : Entry} (hg : s.Matching (.clientStep x c))
    (he : (s.node x).clients[c]? = some (.built e)) : ∃ t', Linked durable following t'
      (s.setNode x { s.node x with
        clients := (s.node x).clients.set c (.waiting ((s.node x).log.append e).2)
        log := ((s.node x).log.append e).1 }) := by
  have hx := hl.node x
  obtain ⟨hr, ht⟩ := hg _ he e rfl
  have hw := hx.lead.1 hr
  rw [hx.cur] at ht
  have hstep : Core.Step Entry.term IsQuorum durable t (t.append x ((s.node x).log.append e).2) :=
    .append _ _ hw ht.symm
  have hlog : ((s.node x).log.append e).1.memoryLog =
      (t.append x ((s.node x).log.append e).2).log x := by
    simp only [Core.append, Function.update_self, ← hx.log]
    rfl
  refine ⟨_, hl.step hfd hstep rfl ⟨hx.cur, hlog, hx.vote, hx.numbered.concat rfl, ?_, hx.lead,
    fun hf => ?_⟩ (fun y hy => ⟨rfl, by simp [Core.append, hy], rfl, id⟩)
    (fun c hc => .inl (hl.ae c hc)) hl.rv fun ev h => .inl h⟩
  · intro hcand
    rw [hr] at hcand
    simp at hcand
  · have hd := hfd hf
    rw [eq_true hd] at hstep
    exact (run_strict hd hl.run).settled_step quorums_meet (hx.settled hf) hstep

/-- The call `callAppendEntries` makes. -/
def newAECall (s : Cluster n) (x r : Fin n) (h : x ≠ r) : AppendEntriesCall n :=
  ⟨x, r, h, (s.node x).appendEntriesRequest x r, (s.node x).log.memoryLog, .built⟩

theorem Linked.callAppendEntries (hl : Linked durable following t s) {x r : Fin n} (h : x ≠ r)
    (hr : (s.node x).currentRole = .kLeader) :
    Linked durable following t (s.callAppendEntries x r h) := by
  have hx := hl.node x
  have hw := hx.lead.1 hr
  have hcanon := hl.run.inv.lead_log hw
  have hterm : (newAECall s x r h).req.term = t.cur x := hx.cur
  have hcall : AELink durable following t (newAECall s x r h) := by
    refine ⟨?_, ?_, hx.numbered, Node.appendEntriesRequest_entries x r hx.numbered, ?_, ?_,
      fun hf => ?_⟩
    · rw [hterm]
      exact hw
    · rw [hterm, ← hcanon, ← hx.log]
      exact List.prefix_rfl
    · intro resp hresp
      simp [Phase.resp?, newAECall] at hresp
    · intro _ resp hresp
      simp [Phase.resp?, newAECall] at hresp
    · rw [hterm]
      change SettledIn t (t.cur x) (s.node x).log.getLastCommitIndex (s.node x).log.memoryLog
      rw [hx.log]
      by_cases h0 : (s.node x).log.memoryLog = []
      · rw [LogManager.getLastCommitIndex_of_eq h0]
        exact .inl rfl
      · rw [LogManager.getLastCommitIndex_of_ne h0]
        exact hx.settled hf
  exact hl.stay rfl (hx.congr rfl rfl rfl rfl hx.settled) (forall_concat hl.ae hcall) hl.rv
    fun ev h => .inl h

theorem Linked.callRequestVote (hl : Linked durable following t s) {x r : Fin n} (h : x ≠ r)
    (hr : (s.node x).currentRole = .kCandidate) :
    Linked durable following t (s.callRequestVote x r h) := by
  have hx := hl.node x
  refine hl.stay rfl (hx.congr rfl rfl rfl rfl hx.settled) hl.ae (forall_concat hl.rv ?_)
    fun ev h => .inl h
  refine ⟨t.log x, ?_, ?_, ?_⟩
  · rw [← hx.bid hr, ← hx.cur]
    rfl
  · rw [← hx.log, ← LogManager.getLastLogIndex_eq hx.numbered]
    rfl
  · rw [← hx.log]
    rfl

end Steps

end RaftFS
