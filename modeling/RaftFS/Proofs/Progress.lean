import RaftFS.Proofs.CatchUp
import RaftFS.Proofs.Electable
import RaftFS.Proofs.Entries

/-!
# A write is possible

Whatever a run has come to, a node that does not lead and a quorum of others whose logs are as long
as its own, and end in no later term, can bring a client's write to an answer of success
(`write_possible`): the node is made leader, appends the entry, and calls each of the others until
its next call is one of its own term.
-/

namespace RaftFS

variable {n : ℕ}

open LogManager

namespace Node

variable {nd : Node n} {id : Fin n} {req : AppendEntriesRequest n} {resp : AppendEntriesResponse}
  {e : Entry}

theorem recordAck_remoteThread (f : Fin n → RemoteThread) :
    recordAck id req resp { nd with remoteThread := f } =
      (recordAck id req resp nd).map fun r => ({ r.1 with remoteThread := f }, r.2) := by
  unfold recordAck resetNextIndex
  simp only
  generalize countAcks id nd.log.getLastCommitIndex req.entries nd.pendingEntries
    nd.log.getLastCommitIndex = p
  by_cases hc : nd.log.getLastCommitIndex ≠ p.2
  · rw [if_pos hc, if_pos hc, Option.map_map]
    rfl
  · rw [if_neg hc, if_neg hc]
    rfl

theorem onAppendEntriesResponse_remoteThread (f : Fin n → RemoteThread) :
    onAppendEntriesResponse id req resp { nd with remoteThread := f } =
      (onAppendEntriesResponse id req resp nd).map fun r =>
        ({ r.1 with remoteThread := f }, r.2) := by
  unfold onAppendEntriesResponse
  rw [recordAck_remoteThread]
  simp only
  split_ifs with h1 h2 h3 h4
  · rfl
  · rw [Option.map_map, Option.map_map]
    rfl
  · unfold backOff resetNextIndex
    split_ifs <;> rfl
  · rfl
  · rfl

/-- An acknowledgement of the last entry of the log, in the leader's term. -/
theorem onAppendEntriesResponse_acks (id : Fin n) (hterm : resp.term = nd.currentTerm)
    (hok : resp.success = true) (hes : req.entries = [e])
    (hlast : nd.log.getLastLogIndex = e.index) (hne : nd.log.memoryLog ≠ []) :
    ∃ nd' commit, onAppendEntriesResponse id req resp nd = some (nd', commit, .wait) ∧
      nd'.currentRole = nd.currentRole ∧ nd'.currentTerm = nd.currentTerm ∧
      nd'.log.memoryLog = nd.log.memoryLog ∧ nd'.clients = nd.clients ∧
      (∀ r, r ≠ id → nd'.nextIndex r = nd.nextIndex r) ∧
      ∀ V, e.index ≤ nd.log.getLastCommitIndex ∨
          V ⊆ nd.pendingEntries e.index ∧ ¬ IsQuorum V →
        e.index ≤ nd'.log.getLastCommitIndex ∨
          insert id V ⊆ nd'.pendingEntries e.index ∧ ¬ IsQuorum (insert id V) := by
  obtain ⟨log, fs, commit, hack, hm, hc⟩ := recordAck_eq id req resp rfl (.inl hne)
  have hnil : req.entries ≠ [] := by simp [hes]
  have hres := onAppendEntriesResponse_success id hterm hok hnil
  rw [hack] at hres
  refine ⟨_, commit, hres, rfl, rfl, hm, rfl, fun r hr => Function.update_of_ne hr _ _, ?_⟩
  intro V hV
  simp only [hes, countAcks] at hc ⊢
  split_ifs at hc ⊢ with hle hq
  · exact .inl (hle.trans_eq (hc (.inl rfl)).symm)
  · exact .inl (hc (.inr hlast.ge)).ge
  · obtain ⟨hsub, -⟩ := hV.resolve_left hle
    simp only [Function.update_self]
    have hins : insert id V ⊆ insert id (nd.pendingEntries e.index) :=
      Finset.insert_subset_insert id hsub
    exact .inr ⟨hins, fun hV => hq (hV.trans ((Finset.card_le_card hins).trans_eq
      (by rw [Function.update_self])))⟩

/-- What a leader sends of the one entry that it has after `F.length`, and what a node with the log
`F`, or with the entry after it, makes of it. -/
theorem exists_onAppendEntries {nx ny : Node n} {L F : List Entry} {x y : Fin n}
    (hlead : nx.currentRole = .kLeader) (hlog : nx.log.memoryLog = L ++ [e])
    (hnext : nx.nextIndex y = L.length + 1) (hle : ny.currentTerm ≤ nx.currentTerm)
    (hL : Numbered (L ++ [e])) (hF : Numbered F) (hlen : F.length = L.length)
    (hy : ny.log.memoryLog = F ∨ ny.log.memoryLog = F ++ [e]) :
    ∃ nd resp, ny.onAppendEntries (nx.appendEntriesRequest x y) = some (nd, resp) ∧
      resp.term = ny.currentTerm ∧ resp.success = true ∧ nd.currentTerm = nx.currentTerm ∧
      nd.log.memoryLog = F ++ [e] ∧ (nx.appendEntriesRequest x y).entries = [e] := by
  have hsends : Replication.Sends y (L ++ [e]) nx.currentTerm L.length ⟨nx, ny⟩ :=
    ⟨hlead, hlog, rfl, hnext, hle⟩
  have hfe : Numbered (F ++ [e]) := by
    refine hF.concat ?_
    rw [hL _ _ List.getElem?_concat_length, hlen]
  have hF' : Numbered ny.log.memoryLog := hy.elim (fun h => h ▸ hF) fun h => h ▸ hfe
  have htakes : Takes (L ++ [e]) ny.log.memoryLog L.length := by
    rcases hy with h | h
    · rw [h]
      exact ⟨hlen.ge, .inr (.inl hlen.symm)⟩
    · rw [h]
      refine ⟨by simp [hlen], .inr (.inr ?_)⟩
      rw [← hlen, List.getElem?_concat_length, hlen, List.getElem?_concat_length]
  have htaken : taken (L ++ [e]) ny.log.memoryLog L.length = F ++ [e] := by
    unfold taken
    rw [if_neg (by simp), List.drop_left]
    rcases hy with h | h
    · rw [h, if_pos hlen.symm]
    · rw [h, if_neg (by simp [hlen]), ← hlen]
      simp [laidOver, appendLoop]
  obtain ⟨nd, resp, hap, hterm, hcur, hok, hlast, -⟩ :=
    hsends.exists_onAppendEntries hL hF' (by simp) (.inr (.inl htakes)) x
  obtain ⟨-, hes, -⟩ := hsends.request hL x
  refine ⟨nd, resp, hap, hterm, hok.2 htakes, hcur, ((hlast (hok.2 htakes)).2).trans htaken, ?_⟩
  rw [hes, List.drop_left]

end Node

namespace Cluster

variable {s t : Cluster n} {x y : Fin n}

/-- A leader calls a node and takes up the response. -/
theorem sendEntries (hne : x ≠ y) (hth : (s.node x).remoteThread y = .waiting)
    (hlead : (s.node x).currentRole = .kLeader) {nd nd' : Node n} {resp : AppendEntriesResponse}
    {commit : Option ℕ} {next : Node.Next}
    (hap : (s.node y).onAppendEntries ((s.node x).appendEntriesRequest x y) = some (nd, resp))
    (hresp : (s.node x).onAppendEntriesResponse y ((s.node x).appendEntriesRequest x y) resp =
      some (nd', commit, next)) :
    ∃ t f, (cluster n).Later CountsOwnTerm s t ∧
      t.node = Function.update (Function.update s.node y nd) x { nd' with remoteThread := f } := by
  let c : AppendEntriesCall n :=
    ⟨x, y, hne, (s.node x).appendEntriesRequest x y, (s.node x).log.memoryLog, .built⟩
  let s₁ := s.callAppendEntries x y hne
  let s₂ := s₁.setAECall s.aeCalls.length { c with phase := .sent }
  let s₃ := (s₂.setNode y nd).setAECall s.aeCalls.length { c with phase := .handled resp }
  have hth₁ : (s₁.node x).remoteThread y = .appendEntries s.aeCalls.length := by
    simp [s₁, callAppendEntries, setThread]
  have hc₁ : s₁.aeCalls[s.aeCalls.length]? = some c := List.getElem?_concat_length
  have hc₂ : s₂.aeCalls[s.aeCalls.length]? = some { c with phase := .sent } :=
    List.getElem?_set_self (List.getElem?_eq_some_iff.1 hc₁).1
  have hc₃ : s₃.aeCalls[s.aeCalls.length]? = some { c with phase := .handled resp } :=
    List.getElem?_set_self (List.getElem?_eq_some_iff.1 hc₂).1
  have hy₂ : s₂.node y = s.node y := by
    simp [s₂, s₁, callAppendEntries, setThread, Function.update_of_ne (Ne.symm hne)]
  have hx₃ : s₃.node x = s₁.node x := by
    simp [s₃, s₂, Function.update_of_ne hne]
  have hx : s₃.node x = { s.node x with remoteThread := (s₁.node x).remoteThread } := by
    rw [hx₃]
    simp [s₁, callAppendEntries, setThread]
  have hst₁ : s.step (.remoteWake x y) = some s₁ := by
    simp only [step, dif_pos hne, hth, if_true, remoteHostLoop, hlead, s₁]
  have hst₂ : s₁.step (.aeSend s.aeCalls.length) = some s₂ := by
    simp only [step, hc₁, Option.bind_eq_bind, Option.bind_some, inAECall, c, hth₁, decide_true,
      and_self, if_true, s₂]
  have hst₃ : s₂.step (.aeHandle s.aeCalls.length) = some s₃ := by
    simp only [step, hc₂, Option.bind_eq_bind, Option.bind_some, if_true, s₃, c, hy₂, hap,
      Option.pure_def]
  have hst₄ : s₃.step (.aeReturn s.aeCalls.length) =
      s₃.takeAppendEntries { c with phase := .handled resp } resp := by
    simp only [step, hc₃, Option.bind_eq_bind, Option.bind_some, inAECall, c, hx₃, hth₁,
      decide_true, if_true]
  have htake : (s₃.node x).onAppendEntriesResponse y c.req resp =
      some ({ nd' with remoteThread := (s₁.node x).remoteThread }, commit, next) := by
    rw [hx, Node.onAppendEntriesResponse_remoteThread, hresp]
    rfl
  simp only [takeAppendEntries, c, htake, Option.bind_eq_bind, Option.bind_some,
    Option.pure_def] at hst₄
  have hl₁ : (cluster n).Later CountsOwnTerm s s₁ := .step (a := .remoteWake x y) .refl trivial hst₁
  have hl₂ : (cluster n).Later CountsOwnTerm s s₂ := .step (a := .aeSend _) hl₁ trivial hst₂
  have hl₃ : (cluster n).Later CountsOwnTerm s s₃ := .step (a := .aeHandle _) hl₂ trivial hst₃
  obtain ⟨f, hf⟩ := goOn_node ((s₃.setNode x { nd' with
    remoteThread := (s₁.node x).remoteThread }).log (commit.map fun N =>
      .committed x nd'.currentTerm N nd'.log.memoryLog)) hne next
  refine ⟨_, f, .step (a := .aeReturn _) hl₃ trivial hst₄, hf.trans ?_⟩
  funext z
  by_cases hzx : z = x
  · subst hzx
    simp
  · by_cases hzy : z = y
    · subst hzy
      simp [s₃, Function.update_of_ne hzx]
    · simp [s₃, s₂, s₁, callAppendEntries, setThread, Function.update_of_ne hzx,
        Function.update_of_ne hzy]

section Submit

/-- The entry that a leader appends for a client. -/
def entryFor (nd : Node n) (op : MetaOp) (path : Str) : Entry :=
  ⟨nd.currentTerm, nd.log.memoryLog.length + 1, op, path⟩

/-- A leader takes a client's write as far as the log. -/
theorem submit (hlead : (s.node x).currentRole = .kLeader) (hid : (s.node x).leaderId ≠ none)
    (call : WriteCall) {path : Str} (hv : FSNamespace.validatePath path = true) :
    ∃ t, (cluster n).Later CountsOwnTerm s t ∧ t.node = Function.update s.node x { s.node x with
      clients := (s.node x).clients ++ [.waiting (entryFor (s.node x) call.op path)]
      log := { (s.node x).log with
        memoryLog := (s.node x).log.memoryLog ++ [entryFor (s.node x) call.op path] } } := by
  let nd := s.node x
  let at' (th : ClientThread n) : Cluster n := s.setNode x { nd with clients := nd.clients ++ [th] }
  have hstep : ∀ {th : ClientThread n} {nd' : Node n},
      Node.onMetaOperation nd.clients.length { nd with clients := nd.clients ++ [th] } =
        some nd' →
      (at' th).step (.clientStep x nd.clients.length) = some (s.setNode x nd') := by
    intro th nd' h
    simp only [step, at', setNode, Function.update_self, h, Option.map_some,
      Function.update_idem]
  have hset : ∀ th th' : ClientThread n,
      (nd.clients ++ [th]).set nd.clients.length th' = nd.clients ++ [th'] := by
    intro th th'
    simp
  have h₀ : s.step (.clientRequest x call path) = some (at' (.accepted call.op path)) := by
    have hleader : (s.node x).isLeader = true := by simp [Node.isLeader, hlead]
    simp only [step, at', nd, WriteCall.handler_eq, Node.onWrite, hv, hleader, Bool.not_true,
      Bool.false_eq_true, if_false]
  have h₁ : (at' (.accepted call.op path)).step (.clientStep x nd.clients.length) =
      some (at' (.led call.op path)) := by
    refine hstep ?_
    simp only [Node.onMetaOperation, List.getElem?_concat_length, nd, hid, if_false, hset]
  have h₂ : (at' (.led call.op path)).step (.clientStep x nd.clients.length) =
      some (at' (.built ⟨nd.currentTerm, 0, call.op, path⟩)) := by
    refine hstep ?_
    simp only [Node.onMetaOperation, List.getElem?_concat_length, hset]
  have h₃ : (at' (.built ⟨nd.currentTerm, 0, call.op, path⟩)).step
      (.clientStep x nd.clients.length) = some (s.setNode x { nd with
        clients := nd.clients ++ [.waiting (entryFor nd call.op path)]
        log := { nd.log with
          memoryLog := nd.log.memoryLog ++ [entryFor nd call.op path] } }) := by
    refine hstep ?_
    simp only [Node.onMetaOperation, List.getElem?_concat_length, hset]
    rfl
  have hl₁ : (cluster n).Later CountsOwnTerm s _ :=
    .step (a := .clientRequest x call path) .refl trivial h₀
  have hl₂ : (cluster n).Later CountsOwnTerm s _ := .step (a := .clientStep x _) hl₁ trivial h₁
  have hl₃ : (cluster n).Later CountsOwnTerm s _ := .step (a := .clientStep x _) hl₂ trivial h₂
  exact ⟨_, .step (a := .clientStep x _) hl₃ trivial h₃, rfl⟩

end Submit

section Spread

/-- Since `s`, the leader `x` of the term `T` has appended `e` for its client `c`, and `V` have it
and have acknowledged it, unless it is committed already. Others may have it, too. -/
structure Spread (s : Cluster n) (x : Fin n) (T : ℕ) (e : Entry) (c : ℕ) (V : Finset (Fin n))
    (t : Cluster n) : Prop where
  later : (cluster n).Later CountsOwnTerm s t
  role : (t.node x).currentRole = .kLeader
  term : (t.node x).currentTerm = T
  log : (t.node x).log.memoryLog = (s.node x).log.memoryLog ++ [e]
  client : (t.node x).clients[c]? = some (.waiting e)
  le : ∀ y, (t.node y).currentTerm ≤ T
  next : ∀ y, y ≠ x → y ∉ V → (t.node x).nextIndex y = (s.node x).log.memoryLog.length + 1
  rest : ∀ y, y ≠ x → y ∉ V → (t.node y).log.memoryLog = (s.node y).log.memoryLog ∨
    (t.node y).log.memoryLog = (s.node y).log.memoryLog ++ [e]
  done : ∀ y ∈ V, (t.node y).log.memoryLog = (s.node y).log.memoryLog ++ [e]
  acked : e.index ≤ (t.node x).log.getLastCommitIndex ∨
    V ⊆ (t.node x).pendingEntries e.index ∧ ¬ IsQuorum V

variable {T c : ℕ} {e : Entry} {V : Finset (Fin n)}

theorem Spread.freed (h : Spread s x T e c V t) {t' : Cluster n} {f : Fin n → RemoteThread}
    (hl : (cluster n).Later CountsOwnTerm t t')
    (hn : t'.node = Function.update t.node x { t.node x with remoteThread := f }) :
    Spread s x T e c V t' := by
  have hx : t'.node x = { t.node x with remoteThread := f } := by rw [hn, Function.update_self]
  exact {
    later := h.later.trans hl
    role := by rw [hx]; exact h.role
    term := by rw [hx]; exact h.term
    log := by rw [hx]; exact h.log
    client := by rw [hx]; exact h.client
    le := forall_of_update (P := fun _ nd => nd.currentTerm ≤ T) hn h.le (h.le x)
    next := by rw [hx]; exact h.next
    rest := forall_of_update (P := fun y nd => y ≠ x → y ∉ V →
      nd.log.memoryLog = (s.node y).log.memoryLog ∨
        nd.log.memoryLog = (s.node y).log.memoryLog ++ [e]) hn h.rest (h.rest x)
    done := forall_of_update (P := fun y nd => y ∈ V →
      nd.log.memoryLog = (s.node y).log.memoryLog ++ [e]) hn h.done (h.done x)
    acked := by rw [hx]; exact h.acked }

/-- A call of a node in an earlier term brings it into the term, and one of a node in the term has
it acknowledge the entry. -/
theorem Spread.call (hs : (cluster n).Reach Runs.Sys.anyStep s) (h : Spread s x T e c V t)
    (hyx : y ≠ x) (hy : y ∉ V) (hL : Numbered ((s.node x).log.memoryLog ++ [e]))
    (hF : Numbered (s.node y).log.memoryLog)
    (hlen : (s.node y).log.memoryLog.length = (s.node x).log.memoryLog.length) :
    ∃ t', Spread s x T e c (if (t.node y).currentTerm = T then insert y V else V) t' ∧
      (t'.node y).currentTerm = T := by
  obtain ⟨t₁, f₁, hl₁, hth, hn₁⟩ := free_loop (hs.later (h.later.mono fun _ _ _ => trivial)) x y
  have h₁ := h.freed hl₁ hn₁
  have hy₁ : t₁.node y = t.node y := by rw [hn₁, Function.update_of_ne hyx]
  obtain ⟨nd, resp, hap, hterm, hok, hcur, hlog, hes⟩ := Node.exists_onAppendEntries h₁.role h₁.log
    (h₁.next y hyx hy) (h₁.term.symm ▸ h₁.le y) hL hF hlen (h₁.rest y hyx hy) (x := x)
  rw [h₁.term] at hcur
  by_cases hT : (t.node y).currentTerm = T
  · have hlast : (t₁.node x).log.getLastLogIndex = e.index := by
      simp [getLastLogIndex, h₁.log]
    obtain ⟨nd', commit, hresp, hrole, hterm', hlog', hclients, hnext, hacked⟩ :=
      Node.onAppendEntriesResponse_acks y (hterm.trans (by rw [hy₁, hT, h₁.term])) hok hes hlast
        (by simp [h₁.log])
    obtain ⟨t₂, f₂, hl₂, hn₂⟩ := sendEntries (Ne.symm hyx) hth h₁.role hap hresp
    have hx₂ : t₂.node x = { nd' with remoteThread := f₂ } := by rw [hn₂, Function.update_self]
    have hy₂ : t₂.node y = nd := by rw [hn₂, Function.update_of_ne hyx, Function.update_self]
    refine ⟨t₂, ?_, by rw [hy₂, hcur]⟩
    rw [if_pos hT]
    exact {
      later := h₁.later.trans hl₂
      role := by rw [hx₂]; exact hrole.trans h₁.role
      term := by rw [hx₂]; exact hterm'.trans h₁.term
      log := by rw [hx₂]; exact hlog'.trans h₁.log
      client := by rw [hx₂]; exact hclients ▸ h₁.client
      le := forall_of_updates (P := fun _ nd => nd.currentTerm ≤ T) hn₂ (fun z _ _ => h₁.le z)
        hcur.le (hterm'.trans h₁.term).le
      next := by
        intro z hzx hz
        rw [hx₂]
        obtain ⟨hzy, hzV⟩ := not_or.1 (Finset.mem_insert.not.1 hz)
        exact (hnext z hzy).trans (h₁.next z hzx hzV)
      rest := by
        refine forall_of_updates (P := fun z nd => z ≠ x → z ∉ insert y V →
          nd.log.memoryLog = (s.node z).log.memoryLog ∨
            nd.log.memoryLog = (s.node z).log.memoryLog ++ [e]) hn₂ ?_ (fun _ _ => .inr hlog)
          fun hne => absurd rfl hne
        exact fun z hzx _ _ hz => h₁.rest z hzx fun hV => hz (Finset.mem_insert_of_mem hV)
      done := by
        refine forall_of_updates (P := fun z nd => z ∈ insert y V →
          nd.log.memoryLog = (s.node z).log.memoryLog ++ [e]) hn₂ ?_ (fun _ => hlog)
          fun _ => hlog'.trans h₁.log
        exact fun z _ hzy hz => h₁.done z (Finset.mem_of_mem_insert_of_ne hz hzy)
      acked := by rw [hx₂]; exact hacked V h₁.acked }
  · have hlt : resp.term < (t₁.node x).currentTerm := by
      rw [hterm, hy₁, h₁.term]
      exact lt_of_le_of_ne (h.le y) hT
    have hresp : (t₁.node x).onAppendEntriesResponse y ((t₁.node x).appendEntriesRequest x y)
        resp = some (t₁.node x, none, .wait) := by
      unfold Node.onAppendEntriesResponse
      rw [if_neg hlt.ne, if_neg hlt.le.not_gt]
    obtain ⟨t₂, f₂, hl₂, hn₂⟩ := sendEntries (Ne.symm hyx) hth h₁.role hap hresp
    have hx₂ : t₂.node x = { t₁.node x with remoteThread := f₂ } := by
      rw [hn₂, Function.update_self]
    have hy₂ : t₂.node y = nd := by rw [hn₂, Function.update_of_ne hyx, Function.update_self]
    refine ⟨t₂, ?_, by rw [hy₂, hcur]⟩
    rw [if_neg hT]
    exact {
      later := h₁.later.trans hl₂
      role := by rw [hx₂]; exact h₁.role
      term := by rw [hx₂]; exact h₁.term
      log := by rw [hx₂]; exact h₁.log
      client := by rw [hx₂]; exact h₁.client
      le := forall_of_updates (P := fun _ nd => nd.currentTerm ≤ T) hn₂ (fun z _ _ => h₁.le z)
        hcur.le (h₁.le x)
      next := by rw [hx₂]; exact h₁.next
      rest := forall_of_updates (P := fun z nd => z ≠ x → z ∉ V →
        nd.log.memoryLog = (s.node z).log.memoryLog ∨
          nd.log.memoryLog = (s.node z).log.memoryLog ++ [e]) hn₂ (fun z _ _ => h₁.rest z)
        (fun _ _ => .inr hlog) fun hne => absurd rfl hne
      done := forall_of_updates (P := fun z nd => z ∈ V →
        nd.log.memoryLog = (s.node z).log.memoryLog ++ [e]) hn₂ (fun z _ _ => h₁.done z)
        (fun _ => hlog) fun _ => h₁.log
      acked := by rw [hx₂]; exact h₁.acked }

theorem Spread.calls (hs : (cluster n).Reach Runs.Sys.anyStep s) (h : Spread s x T e c V t)
    (hyx : y ≠ x) (hy : y ∉ V) (hL : Numbered ((s.node x).log.memoryLog ++ [e]))
    (hF : Numbered (s.node y).log.memoryLog)
    (hlen : (s.node y).log.memoryLog.length = (s.node x).log.memoryLog.length) :
    ∃ t', Spread s x T e c (insert y V) t' := by
  obtain ⟨t₁, h₁, hterm⟩ := h.call hs hyx hy hL hF hlen
  split_ifs at h₁ with hT
  · exact ⟨t₁, h₁⟩
  · obtain ⟨t₂, h₂, -⟩ := h₁.call hs hyx hy hL hF hlen
    rw [if_pos hterm] at h₂
    exact ⟨t₂, h₂⟩

theorem Spread.callAll (hs : (cluster n).Reach Runs.Sys.anyStep s) (h : Spread s x T e c ∅ t)
    (Q : Finset (Fin n)) (hx : x ∉ Q) (hL : Numbered ((s.node x).log.memoryLog ++ [e]))
    (hF : ∀ y ∈ Q, Numbered (s.node y).log.memoryLog)
    (hlen : ∀ y ∈ Q,
      (s.node y).log.memoryLog.length = (s.node x).log.memoryLog.length) :
    ∃ t', Spread s x T e c Q t' := by
  induction Q using Finset.induction_on with
  | empty => exact ⟨t, h⟩
  | insert y Q hy ih =>
    obtain ⟨hxy, hxQ⟩ := not_or.1 (Finset.mem_insert.not.1 hx)
    obtain ⟨t', h'⟩ := ih hxQ (fun z hz => hF z (Finset.mem_insert_of_mem hz))
      (fun z hz => hlen z (Finset.mem_insert_of_mem hz))
    exact h'.calls hs (Ne.symm hxy) hy hL (hF y (Finset.mem_insert_self y Q))
      (hlen y (Finset.mem_insert_self y Q))

end Spread

/-- From whatever state, a node that does not lead can bring a client's write to an answer of
success if there is a quorum of others with logs as long as its own, that end in no later term, all
of them with the indices `1`, `2`, .... The entry is then the last of its log and of theirs, and no
other entry has come or gone there. -/
theorem write_possible {Q : Finset (Fin n)} (hs : (cluster n).Reach Runs.Sys.anyStep s)
    (hx : (s.node x).currentRole ≠ .kLeader) (hxQ : x ∉ Q) (hQ : IsQuorum Q)
    (hnum : ∀ y ∈ insert x Q, Numbered (s.node y).log.memoryLog)
    (hlen : ∀ y ∈ Q, (s.node y).log.memoryLog.length = (s.node x).log.memoryLog.length)
    (hlast : ∀ y ∈ Q, (s.node y).log.getLastLogTerm ≤ (s.node x).log.getLastLogTerm)
    (call : WriteCall) {path : Str} (hv : FSNamespace.validatePath path = true) :
    ∃ (t : Cluster n) (c : ℕ) (e : Entry), (cluster n).Later CountsOwnTerm s t ∧
      (t.node x).clients[c]? = some (.answered call.op path (some e) { status := .kOK }) ∧
      e.op = call.op ∧ e.value = path ∧
      ∀ y ∈ insert x Q, (t.node y).log.memoryLog = (s.node y).log.memoryLog ++ [e] := by
  have hnx := hnum x (Finset.mem_insert_self x Q)
  have hn : 2 ≤ n := by
    have hcard := Finset.card_le_univ (insert x Q)
    rw [Finset.card_insert_of_notMem hxQ, Fintype.card_fin] at hcard
    unfold IsQuorum quorumSize at hQ
    omega
  obtain ⟨t₁, T, h₁, hlead, hnext, -⟩ := exists_standing hn hs
    (hQ.trans (Finset.card_le_card (Finset.subset_insert x Q)))
    (fun y hy => by
      rw [getLastLogIndex_eq hnx, getLastLogIndex_eq (hnum y (Finset.mem_insert_of_mem hy)),
        hlen y hy])
    hlast hx
  have hr₁ := hs.later (h₁.later.mono fun _ _ _ => trivial)
  obtain ⟨t₂, hl₂, hn₂⟩ := submit hlead (by
    rw [((reach_led hr₁).node x).2.1 hlead]
    exact Option.some_ne_none x) call hv
  generalize he : entryFor (t₁.node x) call.op path = e at hn₂
  have hx₂ : t₂.node x = { t₁.node x with
      clients := (t₁.node x).clients ++ [.waiting e]
      log := { (t₁.node x).log with memoryLog := (t₁.node x).log.memoryLog ++ [e] } } := by
    rw [hn₂, Function.update_self]
  have hlog : (t₁.node x).log.memoryLog = (s.node x).log.memoryLog := by rw [(h₁.work x).log]
  have hindex : e.index = (s.node x).log.memoryLog.length + 1 := by
    rw [← he, entryFor, hlog]
  have hspread : Spread s x T e (t₁.node x).clients.length ∅ t₂ := by
    refine ⟨h₁.later.trans hl₂, by rw [hx₂]; exact hlead, by rw [hx₂]; exact h₁.term,
      by rw [hx₂, ← hlog], by rw [hx₂]; exact List.getElem?_concat_length,
      forall_of_update (P := fun _ nd => nd.currentTerm ≤ T) hn₂ h₁.le (h₁.le x), ?_, ?_,
      fun y hy => absurd hy (Finset.notMem_empty y),
      .inr ⟨Finset.empty_subset _, fun h0 => absurd h0 (Nat.not_succ_le_zero _)⟩⟩
    · intro y _ _
      rw [hx₂, ← getLastLogIndex_eq hnx]
      exact hnext y
    · refine forall_of_update (P := fun y nd => y ≠ x → y ∉ (∅ : Finset (Fin n)) →
        nd.log.memoryLog = (s.node y).log.memoryLog ∨
          nd.log.memoryLog = (s.node y).log.memoryLog ++ [e]) hn₂ ?_ fun h0 => absurd rfl h0
      exact fun y _ _ => .inl (by rw [(h₁.work y).log])
  obtain ⟨t₃, h₃⟩ := hspread.callAll hs Q hxQ (hnx.concat hindex)
    (fun y hy => hnum y (Finset.mem_insert_of_mem hy)) hlen
  have hcommit : e.index ≤ (t₃.node x).log.getLastCommitIndex :=
    h₃.acked.resolve_right fun h => h.2 hQ
  have hst : t₃.step (.clientStep x (t₁.node x).clients.length) = some (t₃.setNode x
      { t₃.node x with
        clients := (t₃.node x).clients.set (t₁.node x).clients.length
          (.answered e.op e.value (some e) { status := .kOK }) }) := by
    simp only [step, Node.onMetaOperation, h₃.client, if_pos hcommit, Option.map_some]
  have hop : e.op = call.op := by rw [← he, entryFor]
  have hvalue : e.value = path := by rw [← he, entryFor]
  refine ⟨_, (t₁.node x).clients.length, e, .step (a := .clientStep x _) h₃.later trivial hst, ?_,
    hop, hvalue, fun y hy => ?_⟩
  · have hlt := (List.getElem?_eq_some_iff.1 h₃.client).1
    simp [hop, hvalue, hlt]
  · rcases Finset.mem_insert.1 hy with rfl | hy
    · simp only [setNode_node, Function.update_self]
      exact h₃.log
    · have hyx : y ≠ x := fun h0 => hxQ (h0 ▸ hy)
      simp only [setNode_node, Function.update_of_ne hyx]
      exact h₃.done y hy

/-- Node `0` leads and all have its entry. Node `1` can have a write of its own answered. -/
theorem write_possible_second : ∃ (s t : Cluster 3) (c : ℕ) (e₀ e : Entry),
    (cluster 3).Reach Runs.Sys.anyStep s ∧ (s.node 0).currentRole = .kLeader ∧
    (∀ y, (s.node y).log.memoryLog = [e₀]) ∧ (cluster 3).Later CountsOwnTerm s t ∧
    (t.node 1).clients[c]? = some (.answered .kMkdir ['/', 'b'] (some e) { status := .kOK }) ∧
    ∀ y, (t.node y).log.memoryLog = [e₀, e] := by
  let s := (cluster 3).run Runs.Sys.anyStep start3 readyToCommit
  have hs : (cluster 3).Reach Runs.Sys.anyStep s :=
    Runs.Sys.reach_run reach_start3 (by decide +kernel)
  have hlog : ∀ y, (s.node y).log.memoryLog = [⟨1, 1, .kMkdir, ['/', 'a']⟩] := by decide +kernel
  have hnum : ∀ y, Numbered (s.node y).log.memoryLog := by
    intro y p e he
    rw [hlog y, List.getElem?_singleton] at he
    split_ifs at he with hp
    rw [← Option.some.inj he, hp]
  have hv : FSNamespace.validatePath ['/', 'b'] = true := rfl
  obtain ⟨t, c, e, hl, hc, -, -, hlogs⟩ := write_possible (x := 1) (Q := {0, 2}) hs
    (by decide +kernel) (by decide) (by unfold IsQuorum; decide) (fun y _ => hnum y)
    (by decide +kernel) (by decide +kernel) .mkdir hv
  refine ⟨s, t, c, _, e, hs, by decide +kernel, hlog, hl, hc, fun y => ?_⟩
  rw [hlogs y (by revert y; decide), hlog y, List.singleton_append]

end Cluster

end RaftFS
