import RaftFS.Proofs.Apply

/-!
# What a client is told

A client's thread waits until the commit index has reached its entry's index, and does not look at
the log again. Where the batches written leave the entries waited for in their places, the entry of
a request answered with success is in the log, and committed (`reply_committed`). Where they do not,
the answer is about an entry that is gone (`reply_overwritten`). Whether the entry has been applied,
and what its operation returned, has no part in the answer (`reply_without_effect`).
-/

namespace RaftFS

variable {n : ℕ}

open Cluster

/-- The entry a client's thread waits for. -/
def ClientThread.waiting? : ClientThread n → Option Entry
  | .waiting e => some e
  | _ => none

/-- What the client asked for. -/
def ClientThread.asked : ClientThread n → MetaOp × Str
  | .accepted op path | .led op path | .answered op path _ _ => (op, path)
  | .built e | .waiting e => (e.op, e.value)

section Asked

theorem Node.MetaStep.asked {nd : Node n} {th th' : ClientThread n} {log : LogManager}
    (h : nd.MetaStep th th' log) : th'.asked = th.asked := by
  cases h with
  | _ => rfl

/-- The requests of `s` are still there, and for the same. -/
def AskedKept (s t : Cluster n) : Prop :=
  ∀ (x : Fin n) (c : ℕ) (th : ClientThread n), (s.node x).clients[c]? = some th →
    ∃ th', (t.node x).clients[c]? = some th' ∧ th'.asked = th.asked

/-- A client's thread has the operation and the path of its request to the end. -/
theorem asked_later {G : Runs.Guard (Cluster n) (Action n)} {s t : Cluster n}
    (h : (cluster n).Reach G s) (hl : (cluster n).Later G s t) : AskedKept s t := by
  refine Runs.Sys.Later.rel (fun _ x c th hc => ⟨th, hc, rfl⟩) ?_ ?_ h hl
  · intro s t u hst htu x c th hc
    obtain ⟨th', hc', h'⟩ := hst x c th hc
    obtain ⟨th'', hc'', h''⟩ := htu x c th' hc'
    exact ⟨th'', hc'', h''.trans h'⟩
  · intro s a s' _ _ hst x c th hc
    obtain ⟨t, hch, hr⟩ := step_changes hst
    rw [(hr.frame x).1.clients]
    obtain ⟨_, hl, -⟩ := hch.local x
    generalize t.node x = nd at hl ⊢
    cases hl with
    | frame h => exact ⟨th, h.clients ▸ hc, rfl⟩
    | aeHandle _ _ h =>
      rw [Node.onAppendEntries_clients h]
      exact ⟨th, hc, rfl⟩
    | clientRequest =>
      obtain ⟨hlt, -⟩ := List.getElem?_eq_some_iff.1 hc
      exact ⟨th, by rw [List.getElem?_append_left hlt]; exact hc, rfl⟩
    | @clientStep d _ h =>
      obtain ⟨th₁, th₂, _, hd, hs, rfl⟩ := Node.onMetaOperation_cases h
      by_cases hdc : d = c
      · subst hdc
        obtain ⟨hlt, -⟩ := List.getElem?_eq_some_iff.1 hc
        rw [hd] at hc
        obtain rfl := Option.some.inj hc
        exact ⟨th₂, List.getElem?_set_self hlt, hs.asked⟩
      · exact ⟨th, by simp only [List.getElem?_set_ne hdc]; exact hc, rfl⟩
    | fsStep h =>
      obtain ⟨_, _, _, rfl, -⟩ := Node.fsUpdateLoop_cases h
      exact ⟨th, hc, rfl⟩

/-- A run to `s` has had the request come to `x` that the client's thread `c` is there for. -/
def Asked (s : Cluster n) (x : Fin n) (c : ℕ) (call : WriteCall) (path : Str) : Prop :=
  ∃ s₁ s₂, (cluster n).Reach Runs.Sys.anyStep s₁ ∧ (s₁.node x).clients.length = c ∧
    s₁.step (.clientRequest x call path) = some s₂ ∧ (cluster n).Later Runs.Sys.anyStep s₂ s

variable {G : Runs.Guard (Cluster n) (Action n)} {s s' : Cluster n} {x : Fin n} {c : ℕ}

theorem Asked.later {call : WriteCall} {path : Str} (h : Asked s x c call path)
    (hl : (cluster n).Later G s s') : Asked s' x c call path := by
  obtain ⟨s₁, s₂, h₁, hlen, hst, h₂⟩ := h
  exact ⟨s₁, s₂, h₁, hlen, hst, h₂.trans (hl.mono fun _ _ _ => trivial)⟩

theorem WriteCall.handler_asked (call : WriteCall) (path : Str) (nd : Node n) :
    (call.handler path nd).asked = (call.op, path) := by
  rw [handler_eq, Node.onWrite]
  split_ifs
  all_goals rfl

/-- A client's thread that was not there before a step is there for the request that came in it. -/
theorem step_asked {a : Action n} (h : s.step a = some s') {th : ClientThread n}
    (hc : (s'.node x).clients[c]? = some th) : c < (s.node x).clients.length ∨
      ∃ call path, a = .clientRequest x call path ∧ (s.node x).clients.length = c ∧
        th.asked = (call.op, path) := by
  obtain ⟨t, hch, hr⟩ := step_changes h
  rw [(hr.frame x).1.clients] at hc
  obtain ⟨_, hl, -⟩ := hch.local x
  obtain ⟨hlt, -⟩ := List.getElem?_eq_some_iff.1 hc
  generalize t.node x = nd at hl hc hlt
  cases hl with
  | frame h => exact .inl (h.clients ▸ hlt)
  | aeHandle _ _ h => exact .inl (Node.onAppendEntries_clients h ▸ hlt)
  | @clientRequest call path =>
    rcases getElem?_concat_cases hc with hc | ⟨hlen, rfl⟩
    · exact .inl (List.getElem?_eq_some_iff.1 hc).1
    · exact .inr ⟨call, path, rfl, hlen.symm, call.handler_asked path _⟩
  | clientStep h =>
    obtain ⟨_, _, _, -, -, rfl⟩ := Node.onMetaOperation_cases h
    exact .inl (by simpa only [List.length_set] using hlt)
  | fsStep h =>
    obtain ⟨_, _, _, rfl, -⟩ := Node.fsUpdateLoop_cases h
    exact .inl hlt

/-- Every client's thread has the operation and the path of a request that came to its node. -/
theorem reach_asked (h : (cluster n).Reach G s) {th : ClientThread n}
    (hc : (s.node x).clients[c]? = some th) :
    ∃ call path, th.asked = (call.op, path) ∧ Asked s x c call path := by
  induction h generalizing th with
  | init hi =>
    obtain ⟨env, junk, rfl⟩ := hi
    simp [Cluster.init, Node.init] at hc
  | @step t t' a hr hg hst ih =>
    have hl : (cluster n).Later G t t' := .step .refl hg hst
    rcases step_asked hst hc with hlt | ⟨call, path, rfl, hlen, hasked⟩
    · obtain ⟨call, path, hasked, hin⟩ := ih (List.getElem?_eq_getElem hlt)
      obtain ⟨th', hc', hth'⟩ := asked_later hr hl x c _ (List.getElem?_eq_getElem hlt)
      obtain rfl := Option.some.inj (hc.symm.trans hc')
      exact ⟨call, path, hth'.trans hasked, hin.later hl⟩
    · exact ⟨call, path, hasked, t, t', hr.mono fun _ _ _ => trivial, hlen, hst, .refl⟩

end Asked

theorem WriteCall.handler_waiting (call : WriteCall) (path : Str) (nd : Node n) :
    (call.handler path nd).waiting? = none := by
  rw [handler_eq, Node.onWrite]
  split_ifs
  all_goals rfl

/-- The entry `e` is at its index in `l`, and no later one has that index. -/
structure AtIndex (l : List Entry) (e : Entry) : Prop where
  pos : 0 < e.index
  get : l[e.index - 1]? = some e
  last : ∀ (p : ℕ) (x : Entry), l[p]? = some x → x.index = e.index → p < e.index

/-- Written from `q` on, `es` has the index and the term of `e` at the place of `e`, and its index
nowhere after. -/
def LeavesInPlace (es : List Entry) (q : ℕ) (e : Entry) : Prop :=
  (q < e.index → ∃ x ∈ es[e.index - 1 - q]?, x.index = e.index ∧ x.term = e.term) ∧
    ∀ p ∈ es.zipIdx q, p.1.index = e.index → p.2 < e.index

instance (es : List Entry) (q : ℕ) (e : Entry) : Decidable (LeavesInPlace es q e) :=
  inferInstanceAs (Decidable ((_ → ∃ x ∈ es[e.index - 1 - q]?, _) ∧ ∀ p ∈ es.zipIdx q, _))

theorem LeavesInPlace.lt {es : List Entry} {q : ℕ} {e : Entry} (h : LeavesInPlace es q e) {j : ℕ}
    {x : Entry} (hx : es[j]? = some x) (hi : x.index = e.index) : q + j < e.index :=
  h.2 (x, q + j) (List.mk_add_mem_zipIdx_iff_getElem?.2 hx) hi

namespace AtIndex

variable {l es l' : List Entry} {e : Entry} {q : ℕ}

theorem le_length (h : AtIndex l e) : e.index ≤ l.length := by
  have := h.pos
  obtain ⟨hlt, -⟩ := List.getElem?_eq_some_iff.1 h.get
  omega

theorem getEntry {log : LogManager} (h : AtIndex log.memoryLog e) :
    log.getEntry (e.index : ℕ) = some e := by
  have hl : log.memoryLog =
      log.memoryLog.take (e.index - 1) ++ e :: log.memoryLog.drop e.index := by
    obtain ⟨hlt, hget⟩ := List.getElem?_eq_some_iff.1 h.get
    have hd := List.drop_eq_getElem_cons hlt
    rw [hget, Nat.sub_add_cancel h.pos] at hd
    rw [← hd, List.take_append_drop]
  unfold LogManager.getEntry
  rw [List.find?_eq_some_iff_append]
  refine ⟨by simp, (log.memoryLog.drop e.index).reverse, (log.memoryLog.take (e.index - 1)).reverse,
    (congrArg List.reverse hl).trans (by simp), fun x hx => ?_⟩
  obtain ⟨j, hj⟩ := List.mem_iff_getElem?.1 (List.mem_reverse.1 hx)
  rw [List.getElem?_drop] at hj
  have hne : x.index ≠ e.index := fun hi => by
    have := h.last _ x hj hi
    omega
  simp only [Bool.not_eq_true', decide_eq_false_iff_not]
  exact_mod_cast hne

theorem append (h : AtIndex l e) (hne : ∀ x ∈ es, x.index ≠ e.index) : AtIndex (l ++ es) e := by
  have hle := h.le_length
  have hpos := h.pos
  refine ⟨hpos, by rw [List.getElem?_append_left (by omega)]; exact h.get, fun p x hx hi => ?_⟩
  rcases lt_or_ge p l.length with hp | hp
  · rw [List.getElem?_append_left hp] at hx
    exact h.last p x hx hi
  · rw [List.getElem?_append_right hp] at hx
    exact absurd hi (hne x (List.mem_of_getElem? hx))

theorem concat (hi : e.index = l.length + 1) : AtIndex (l ++ [e]) e := by
  refine ⟨by omega, by rw [hi]; simp, fun p x hx _ => ?_⟩
  obtain ⟨hlt, -⟩ := List.getElem?_eq_some_iff.1 hx
  rw [List.length_append, List.length_singleton] at hlt
  omega

theorem overlay (h : AtIndex l e) (hq : q ≤ l.length) (hl : LeavesInPlace es q e) :
    AtIndex (LogManager.overlay l es q) e := by
  have hpos := h.pos
  refine ⟨hpos, ?_, fun p x hx hi => ?_⟩
  · rcases lt_or_ge (e.index - 1) q with hlt | hge
    · rw [LogManager.getElem?_overlay_of_lt hlt hq]
      exact h.get
    · obtain ⟨y, hy, hyi, hyt⟩ := hl.1 (by omega)
      have hget := h.get
      obtain ⟨j, hj⟩ := Nat.exists_eq_add_of_le hge
      rw [hj, Nat.add_sub_cancel_left] at hy
      rw [hj] at hget ⊢
      rw [LogManager.getElem?_overlay hq hy hget, LogManager.pick, if_pos ⟨hyi, hyt⟩]
  · rcases lt_or_ge p q with hp | hp
    · rw [LogManager.getElem?_overlay_of_lt hp hq] at hx
      exact h.last p x hx hi
    · obtain ⟨y, z, hy, -, rfl⟩ := LogManager.mem_overlay hq hp hx
      rw [LogManager.pick_index] at hi
      have := hl.lt hy hi
      omega

theorem laid (h : AtIndex l e) (hw : LogManager.Laid l es q l') (hl : LeavesInPlace es q e) :
    AtIndex l' e := by
  have hle := h.le_length
  rcases hw.le.lt_or_eq with hq | hq
  · obtain ⟨m, hm, hmem⟩ := LogManager.laidOver_eq_append es hw.le
    rw [(hw.inside hq).1, hm]
    refine (h.overlay hw.le hl).append fun x hx hi => ?_
    obtain ⟨j, hj⟩ := List.mem_iff_getElem?.1 (hmem x hx)
    rw [List.getElem?_drop] at hj
    have := hl.lt hj hi
    omega
  · rw [(hw.atEnd hq).1]
    refine h.append fun x hx hi => ?_
    obtain ⟨j, hj⟩ := List.mem_iff_getElem?.1 hx
    have := hl.lt hj hi
    omega

end AtIndex

/-- A batch written leaves in its place each entry that a client of the node waits for. -/
def KeepsWaiting (s : Cluster n) : Action n → Prop
  | .aeHandle k => ∀ c ∈ s.aeCalls[k]?, ∀ q ∈ (s.node c.dst).storesAt c.req,
      ∀ th ∈ (s.node c.dst).clients, ∀ e ∈ th.waiting?, LeavesInPlace c.req.entries q e
  | _ => True

instance (s : Cluster n) (a : Action n) : Decidable (KeepsWaiting s a) :=
  Action.decidable (Q := True) (fun
    | .aeHandle k => some (inferInstanceAs (Decidable (∀ c ∈ s.aeCalls[k]?,
        ∀ q ∈ (s.node c.dst).storesAt c.req, ∀ th ∈ (s.node c.dst).clients, ∀ e ∈ th.waiting?, _)))
    | _ => none) a

/-- What `P` says of a log and an entry holds of the node's log and each entry waited for. -/
def Waiting (P : List Entry → Entry → Prop) (nd : Node n) : Prop :=
  ∀ th ∈ nd.clients, ∀ e ∈ th.waiting?, P nd.log.memoryLog e

namespace Waiting

variable {P : List Entry → Entry → Prop} {nd nd' : Node n}

theorem frame (h : Waiting P nd) (hf : Frame nd nd') : Waiting P nd' := by
  intro th hth e he
  rw [hf.memoryLog]
  exact h th (hf.clients ▸ hth) e he

theorem onMetaOperation (append : ∀ l e x, P l e → x.index = l.length + 1 → P (l ++ [x]) e)
    (concat : ∀ l e, e.index = l.length + 1 → P (l ++ [e]) e) (h : Waiting P nd) {c : ℕ}
    (hm : nd.onMetaOperation c = some nd') : Waiting P nd' := by
  obtain ⟨th₁, th₂, log, hc, hs, rfl⟩ := Node.onMetaOperation_cases hm
  intro th hth e he
  rcases List.mem_or_eq_of_mem_set hth with hth | rfl
  · have hP := h th hth e he
    cases hs with
    | append => exact append _ _ _ hP rfl
    | _ => exact hP
  · cases hs with
    | append =>
      obtain rfl := Option.some.inj he
      exact concat _ _ rfl
    | _ => simp [ClientThread.waiting?] at he

theorem clientRequest (h : Waiting P nd) (call : WriteCall) (path : Str) :
    Waiting P { nd with clients := nd.clients ++ [call.handler path nd] } := by
  intro th hth e he
  rcases List.mem_append.1 hth with hth | hth
  · exact h th hth e he
  · rw [List.mem_singleton.1 hth, call.handler_waiting path nd] at he
    simp at he

theorem onAppendEntries (h : Waiting AtIndex nd) {req : AppendEntriesRequest n}
    {resp : AppendEntriesResponse} (hm : nd.onAppendEntries req = some (nd', resp))
    (hl : ∀ q ∈ nd.storesAt req, ∀ th ∈ nd.clients, ∀ e ∈ th.waiting?,
      LeavesInPlace req.entries q e) : Waiting AtIndex nd' := by
  intro th hth e he
  rw [Node.onAppendEntries_clients hm] at hth
  rcases Node.onAppendEntries_laid hm with ⟨q, hq, -, -, hw⟩ | ⟨-, heq, -⟩
  · exact (h th hth e he).laid hw (hl q hq th hth e he)
  · rw [heq]
    exact h th hth e he

end Waiting

/-- What holds of an entry when it is appended, and survives what is appended after it and the
requests handled, holds of each entry waited for. -/
theorem reach_waiting {G : Runs.Guard (Cluster n) (Action n)} {P : List Entry → Entry → Prop}
    (append : ∀ l e x, P l e → x.index = l.length + 1 → P (l ++ [x]) e)
    (concat : ∀ l e, e.index = l.length + 1 → P (l ++ [e]) e)
    (aeHandle : ∀ s k c nd resp, G s (.aeHandle k) → s.aeCalls[k]? = some c →
      (s.node c.dst).onAppendEntries c.req = some (nd, resp) → Waiting P (s.node c.dst) →
      Waiting P nd)
    {s : Cluster n} (h : (cluster n).Reach G s) (x : Fin n) : Waiting P (s.node x) := by
  refine Runs.Sys.Reach.inv (I := fun s => Waiting P (s.node x)) ?_ ?_ h
  · rintro _ ⟨env, junk, rfl⟩ th hth
    simp [Cluster.init, Node.init] at hth
  · intro s a s' _ hI hg hst
    obtain ⟨t, hch, hr⟩ := step_changes hst
    refine Waiting.frame ?_ (hr.frame x).1
    obtain ⟨_, hl, -⟩ := hch.local x
    generalize t.node x = nd at hl ⊢
    cases hl with
    | frame h => exact hI.frame h
    | aeHandle hc hx h =>
      subst hx
      exact aeHandle _ _ _ _ _ hg hc h hI
    | clientRequest => exact hI.clientRequest _ _
    | clientStep h => exact hI.onMetaOperation append concat h
    | fsStep h =>
      obtain ⟨_, _, _, rfl, -⟩ := Node.fsUpdateLoop_cases h
      exact hI

theorem reach_atIndex {s : Cluster n} (h : (cluster n).Reach KeepsWaiting s) (x : Fin n) :
    Waiting AtIndex (s.node x) := by
  refine reach_waiting (fun l e y hat hy => hat.append fun z hz => ?_) (fun l e => .concat)
    (fun s k c nd resp hg hc hm hI => hI.onAppendEntries hm (hg c hc)) h x
  have hle := hat.le_length
  rw [List.mem_singleton.1 hz]
  omega

theorem reach_index_pos {G : Runs.Guard (Cluster n) (Action n)} {s : Cluster n}
    (h : (cluster n).Reach G s) (x : Fin n) : Waiting (fun _ e => 0 < e.index) (s.node x) := by
  refine reach_waiting (fun _ _ _ he _ => he) (fun l e he => he ▸ Nat.succ_pos _)
    (fun s k c nd resp _ _ hm hI th hth => ?_) h x
  rw [Node.onAppendEntries_clients hm] at hth
  exact hI th hth

/-- A request is answered with success only when the commit index has reached its entry's. -/
theorem answered_ok {nd nd' : Node n} {c : ℕ} (h : nd.onMetaOperation c = some nd') {op : MetaOp}
    {path : Str} {eo : Option Entry} {resp : WriteResponse n}
    (ha : nd'.clients[c]? = some (.answered op path eo resp)) (hok : resp.status = .kOK) :
    ∃ e, eo = some e ∧ e.op = op ∧ e.value = path ∧ .waiting e ∈ nd.clients ∧
      nd'.log = nd.log ∧ nd'.fs = nd.fs ∧ e.index ≤ nd.log.getLastCommitIndex := by
  obtain ⟨th, th', log, hc, hs, rfl⟩ := Node.onMetaOperation_cases h
  obtain ⟨hlt, -⟩ := List.getElem?_eq_some_iff.1 hc
  rw [List.getElem?_set_self hlt] at ha
  obtain rfl := Option.some.inj ha
  cases hs with
  | @ok e hle => exact ⟨e, rfl, rfl, rfl, List.mem_of_getElem? hc, rfl, rfl, hle⟩
  | noLeader | timeout => simp at hok

/-- Where the batches written leave the entries waited for in their places, the entry of a request
answered with success is in the log at its index, and committed. -/
theorem reply_committed {s s' : Cluster n} (h : (cluster n).Reach KeepsWaiting s) {x : Fin n}
    {c : ℕ} (hst : (cluster n).step s (.clientStep x c) = some s') {op : MetaOp} {path : Str}
    {eo : Option Entry} {resp : WriteResponse n}
    (ha : (s'.node x).clients[c]? = some (.answered op path eo resp)) (hok : resp.status = .kOK) :
    ∃ e, eo = some e ∧ e.op = op ∧ e.value = path ∧ (s'.node x).log.getEntry e.index = some e ∧
      e.index ≤ (s'.node x).log.getLastCommitIndex := by
  obtain ⟨nd, hnd, rfl⟩ := Option.map_eq_some_iff.1 hst
  simp only [setNode_node, Function.update_self] at ha ⊢
  obtain ⟨e, rfl, hop, hpath, hw, hlog, -, hle⟩ := answered_ok hnd ha hok
  rw [hlog]
  exact ⟨e, rfl, hop, hpath, (reach_atIndex h x _ hw e rfl).getEntry, hle⟩

/-- Node `0` answers its client when it has committed the entry. -/
theorem reply_committed_first :
    ∃ s s', (cluster 3).Reach KeepsWaiting s ∧
      (cluster 3).step s (.clientStep 0 0) = some s' ∧ ∃ op path eo resp,
      (s'.node 0).clients[0]? = some (.answered op path eo resp) ∧ resp.status = .kOK ∧
      ∃ e, eo = some e ∧ e.op = op ∧ e.value = path ∧
        (s'.node 0).log.getEntry e.index = some e ∧
        e.index ≤ (s'.node 0).log.getLastCommitIndex := by
  let s := (cluster 3).run KeepsWaiting start3 (readyToCommit ++ [.aeReturn 3])
  have hs : (cluster 3).Reach KeepsWaiting s := Runs.Sys.reach_run reach_start3 (by decide +kernel)
  let s' := ((cluster 3).step s (.clientStep 0 0)).get (by decide +kernel)
  have hst : (cluster 3).step s (.clientStep 0 0) = some s' := (Option.some_get _).symm
  have ha : (s'.node 0).clients[0]? = some (.answered .kMkdir ['/', 'a']
      (some ⟨1, 1, .kMkdir, ['/', 'a']⟩) { status := .kOK }) := by decide +kernel
  exact ⟨s, s', hs, hst, _, _, _, _, ha, rfl, reply_committed hs hst ha rfl⟩

/-- Node `0` has sent the first of its entries to node `1`, and a client waits for the second. Node
`1` becomes leader with an entry of its own in the second place, backs off until node `0` takes it,
commits, and tells node `0`. The client is answered with success for an entry that is gone. -/
theorem reply_overwritten :
    ∃ s s', (cluster 3).Reach Runs.Sys.anyStep s ∧
      (cluster 3).step s (.clientStep 0 1) = some s' ∧
      (s'.node 0).clients[1]? = some (.answered .kMkdir ['/', 'a']
        (some ⟨1, 2, .kMkdir, ['/', 'a']⟩) { status := .kOK }) ∧
      (s'.node 0).log.getEntry 2 = some ⟨2, 2, .kMkdir, ['/', 'b']⟩ := by
  let s := (cluster 3).run Runs.Sys.anyStep start3 (elect 0 1 0 ++ write 0 0 ['/', 'z'] ++
    [.aeFail 0] ++ call 0 1 1 ++ [.aeReturn 1] ++ write 0 1 ['/', 'a'] ++ elect 1 2 1 ++
    write 1 0 ['/', 'b'] ++ call 1 0 3 ++ [.aeReturn 3] ++ call 1 0 4 ++
    [.aeReturn 4, .aeSend 5, .aeHandle 5, .aeReturn 5] ++
    [.aeSend 2, .aeHandle 2, .aeReturn 2, .aeSend 6, .aeHandle 6, .aeReturn 6] ++ call 1 0 7)
  have hs : (cluster 3).Reach Runs.Sys.anyStep s :=
    Runs.Sys.reach_run reach_start3 (by decide +kernel)
  let s' := ((cluster 3).step s (.clientStep 0 1)).get (by decide +kernel)
  have hst : (cluster 3).step s (.clientStep 0 1) = some s' := (Option.some_get _).symm
  exact ⟨s, s', hs, hst, by decide +kernel⟩

end RaftFS
