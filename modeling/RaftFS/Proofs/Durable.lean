import RaftFS.Proofs.Replicated

/-!
# Acknowledged writes last

Every commit index comes from a leader that has set its own from acknowledgements, in a term that
the node has reached (`reach_backed`). So what a node has committed is on record, and stays what
every node commits and applies at its index and what every later leader has. The write of a request
answered with success is such an entry (`acknowledged_durable`). An entry that one node has no
result for, no node ever has, and nothing is applied past it (`stuck_everywhere`).
-/

namespace RaftFS

variable {n : ℕ}

open Ballots Cluster

section Backed

/-- A leader of a term up to `T` has set its commit index to `c` or further. -/
def Backed (s : Cluster n) (T c : ℕ) : Prop :=
  c = 0 ∨ ∃ y U N l, .committed y U N l ∈ s.history ∧ U ≤ T ∧ c ≤ N

theorem Backed.mono {s t : Cluster n} {T T' c c' : ℕ} (h : Backed s T c)
    (hh : ∀ ev ∈ s.history, ev ∈ t.history) (hT : T ≤ T') (hc : c' ≤ c) : Backed t T' c' := by
  rcases h with rfl | ⟨y, U, N, l, hev, hU, hN⟩
  · exact .inl (Nat.le_zero.1 hc)
  · exact .inr ⟨y, U, N, l, hh _ hev, hU.trans hT, hc.trans hN⟩

/-- The commit indices of the nodes and of the requests come from leaders. -/
structure AllBacked (s : Cluster n) : Prop where
  node : ∀ x, Backed s (s.node x).currentTerm (s.node x).log.lastCommitedIndex
  sent : ∀ c ∈ s.aeCalls, Backed s c.req.term c.req.leaderCommitIndex

/-- A move leaves a node's commit index as it is, or sets it to a request's whose term the node
takes, or to what is put on record. -/
theorem Cluster.Move.commit {s t : Cluster n} {a : Action n} (h : s.Move a t) (x : Fin n) :
    (t.node x).log.lastCommitedIndex = (s.node x).log.lastCommitedIndex ∨
    (∃ c ∈ s.aeCalls, (t.node x).log.lastCommitedIndex = c.req.leaderCommitIndex ∧
      (t.node x).currentTerm = c.req.term) ∨
    ∃ l, .committed x (t.node x).currentTerm (t.node x).log.lastCommitedIndex l ∈ t.history := by
  have hkeep : ∀ {y nd}, nd.log = (s.node y).log →
      (Function.update s.node y nd x).log.lastCommitedIndex =
        (s.node x).log.lastCommitedIndex := by
    intro y nd hlog
    rw [Function.update_apply]
    split_ifs with hxy
    · rw [hlog, hxy]
    · rfl
  cases h with
  | timeout => exact .inl (hkeep (Node.startLeaderElection_work _ _).log)
  | @aeHandle k c nd resp hc hp h =>
    rcases eq_or_ne x c.dst with rfl | hx
    swap
    · exact .inl (by simp [Function.update_of_ne hx])
    simp only [setAECall_node, setNode_node, Function.update_self]
    rcases Node.onAppendEntries_cases h with ⟨-, rfl, -⟩ | ⟨_, _, _, log, log', _, ha, rfl⟩
    · exact .inl rfl
    · rcases ha.commit with rfl | ⟨heq, -⟩
      · exact .inl (Node.storeEntries_laid ha.term_le ha.stored).1
      · exact .inr (.inl ⟨c, List.mem_of_getElem? hc, heq, rfl⟩)
  | @aeTake _ k c resp nd commit next hc ha h =>
    rcases eq_or_ne x c.src with rfl | hx
    swap
    · exact .inl (by simp [Function.update_of_ne hx])
    simp only [log_node, log_history, setNode_node, Function.update_self]
    rcases Node.onAppendEntriesResponse_cases h with
      ⟨-, -, -, hr⟩ | ⟨-, -, rfl⟩ | ⟨-, _, rfl, -⟩
    · obtain ⟨_, log, _, rfl, -, -, ⟨-, rfl⟩ | ⟨e, -, rfl, he, -⟩⟩ := Node.recordAck_cases hr
      · exact .inl rfl
      · exact .inr (.inr ⟨log.memoryLog, by simp [he]⟩)
    · exact .inl rfl
    · exact .inl rfl
  | rvHandle => exact .inl (hkeep (Node.onRequestVote_work _ _).log)
  | rvTake hc ha h => exact .inl (hkeep (Node.onRequestVoteResponse_work h).log)
  | @append y c e h =>
    rcases eq_or_ne x y with rfl | hx
    · exact .inl (by simp [LogManager.append])
    · exact .inl (by simp [Function.update_of_ne hx])

theorem Cluster.Move.sent {s t : Cluster n} {a : Action n} (h : s.Move a t) :
    ∀ c ∈ t.aeCalls, ∃ c' ∈ s.aeCalls, c.req = c'.req := by
  cases h with
  | @aeHandle k c nd resp hc =>
    exact forall_set (fun c hc => ⟨c, hc, rfl⟩) ⟨c, List.mem_of_getElem? hc, rfl⟩
  | _ => exact fun c hc => ⟨c, hc, rfl⟩

namespace AllBacked

variable {s t : Cluster n} {a : Action n}

theorem change (h : AllBacked s) (hg : ∀ x, GateOk (s.node x)) (hc : s.Change a t) :
    AllBacked t := by
  have hh : ∀ ev ∈ s.history, ev ∈ t.history := fun _ hev => hc.history.subset hev
  rcases hc.quiet_or_move hg with hq | hm
  · refine ⟨fun x => ?_, fun c hc => ?_⟩
    · rw [(hq.core x).currentTerm, (hq.core x).log]
      exact (h.node x).mono hh le_rfl le_rfl
    · obtain ⟨c', hc', ph, rfl, -⟩ := hq.aeCalls c hc
      exact (h.sent c' hc').mono hh le_rfl le_rfl
  · refine ⟨fun x => ?_, fun c hc => ?_⟩
    · rcases hm.commit x with heq | ⟨c, hc, heq, hT⟩ | ⟨l, hl⟩
      · rw [heq]
        exact (h.node x).mono hh (VotesKept.of_move hm x).term le_rfl
      · rw [heq, hT]
        exact (h.sent c hc).mono hh le_rfl le_rfl
      · exact .inr ⟨x, _, _, l, hl, le_rfl, le_rfl⟩
    · obtain ⟨c', hc', hreq⟩ := hm.sent c hc
      rw [hreq]
      exact (h.sent c' hc').mono hh le_rfl le_rfl

theorem resume (h : AllBacked s) (hr : s.Resume t) : AllBacked t := by
  refine ⟨fun x => ?_, ?_⟩
  · obtain ⟨f, hf⟩ := hr.node x
    rw [hf]
    exact (h.node x).mono (fun ev hev => (hr.frame x).2 ▸ hev) le_rfl le_rfl
  · cases hr with
    | none | wait | requestVote => exact h.sent
    | @appendEntries x r hxr hl =>
      intro c hc
      rcases List.mem_append.1 hc with hc | hc
      · exact h.sent c hc
      · rw [List.mem_singleton.1 hc]
        exact (h.node x).mono (fun ev hev => hev) le_rfl LogManager.getLastCommitIndex_le_last

end AllBacked

/-- Every commit index comes from a leader of a term that is reached. -/
theorem reach_backed {G : Runs.Guard (Cluster n) (Action n)} {s : Cluster n}
    (h : (cluster n).Reach G s) : AllBacked s := by
  refine h.inv (I := AllBacked) ?_ fun s a s' hs hI _ hst => ?_
  · rintro _ ⟨env, junk, rfl⟩
    exact ⟨fun x => .inl rfl, fun c hc => by simp [Cluster.init] at hc⟩
  · obtain ⟨t, hc, hr⟩ := step_changes hst
    exact (hI.change (reach_gateOk hs) hc).resume hr

end Backed

section OnRecord

/-- A leader of the term `U` has set its commit index to `i` or further, and had `e` at `i`. -/
def OnRecord (s : Cluster n) (U i : ℕ) (e : Entry) : Prop :=
  ∃ y N l, .committed y U N l ∈ s.history ∧ 0 < i ∧ i ≤ N ∧ l[i - 1]? = some e

variable {s s' : Cluster n} {x : Fin n} {U V i : ℕ} {e e' : Entry}

theorem OnRecord.later {G : Runs.Guard (Cluster n) (Action n)} (h : OnRecord s U i e)
    (hl : (cluster n).Later G s s') : OnRecord s' U i e := by
  obtain ⟨y, N, l, hev, h⟩ := h
  exact ⟨y, N, l, (later_history hl).subset hev, h⟩

theorem OnRecord.chosen {t : LCore n} (hl : Linked True True t s) (h : OnRecord s U i e) :
    0 < i ∧ ∃ N, t.Chosen Entry.term IsQuorum U N ∧ i ≤ N ∧ (t.canon U)[i - 1]? = some e := by
  obtain ⟨y, N, l, hev, hi, hN, he⟩ := h
  obtain ⟨-, hch, hheld⟩ := hl.event _ hev trivial
  rw [hheld.getElem?_eq hch.1.le (by omega)] at he
  exact ⟨hi, N, hch, hN, he⟩

/-- What a node has committed is on record, with a term that the node has reached. -/
theorem exists_onRecord (h : (cluster n).Reach Applying s) (hi : 0 < i)
    (hle : i ≤ (s.node x).log.getLastCommitIndex) : ∃ e U, U ≤ (s.node x).currentTerm ∧
      (s.node x).log.getEntry i = some e ∧ OnRecord s U i e := by
  obtain ⟨t, hl⟩ := linked_of_applying h
  have hx := hl.node x
  have hlast := hle.trans LogManager.getLastCommitIndex_le_last
  obtain ⟨T, M, hT, -, hM, hheld⟩ := (hx.settled trivial).resolve_left (by omega)
  obtain ⟨y, U, N, l, hev, hU, hN⟩ := ((reach_backed h).node x).resolve_left (by omega)
  obtain ⟨-, hch, hheld'⟩ := hl.event _ hev trivial
  have hlen := hch.1.le
  have hlen' := hM.trans hT.1.le
  obtain ⟨e, he⟩ : ∃ e, (t.canon U)[i - 1]? = some e := ⟨_, List.getElem?_eq_getElem (by omega)⟩
  obtain ⟨e', he'⟩ : ∃ e, (t.canon T)[i - 1]? = some e := ⟨_, List.getElem?_eq_getElem (by omega)⟩
  obtain rfl := chosen_entry hl hi hch (hlast.trans hN) he hT (hlast.trans hM) he'
  refine ⟨e, U, hU, ?_, y, N, l, hev, hi, hlast.trans hN, ?_⟩
  · rw [LogManager.getEntry_eq_some_iff hx.numbered, hx.log]
    exact ⟨hi, by rw [hheld.getElem?_eq hlen' (by omega), he']⟩
  · rw [hheld'.getElem?_eq hlen (by omega), he]

/-- What is on record is what every node commits there, -/
theorem OnRecord.committed (h : (cluster n).Reach Applying s) (hr : OnRecord s U i e)
    (hle : i ≤ (s.node x).log.getLastCommitIndex) : (s.node x).log.getEntry i = some e := by
  obtain ⟨t, hl⟩ := linked_of_applying h
  obtain ⟨hi, N, hch, hN, he⟩ := hr.chosen hl
  obtain ⟨e', V, -, hget, hr'⟩ := exists_onRecord h hi hle
  obtain ⟨-, M, hch', hM, he'⟩ := hr'.chosen hl
  rw [hget, chosen_entry hl hi hch hN he hch' hM he']

/-- and applies, -/
theorem OnRecord.applied (h : (cluster n).Reach Applying s) (hr : OnRecord s U i e)
    {rt : Option Bool} (hev : .applied x i e' rt ∈ s.history) : e' = e := by
  obtain ⟨t, hl⟩ := linked_of_applying h
  obtain ⟨hi, N, hch, hN, he⟩ := hr.chosen hl
  obtain ⟨-, V, M, hch', hM, he'⟩ := hl.event _ hev trivial
  exact (chosen_entry hl hi hch hN he hch' hM he').symm

/-- and what every leader of a later term begins with. -/
theorem OnRecord.leads (h : (cluster n).Reach Applying s) (hr : OnRecord s U i e) {l : List Entry}
    (hev : .becameLeader x V l ∈ s.history) (hV : U < V) : entryAt l i = some e := by
  obtain ⟨t, hl⟩ := linked_of_applying h
  obtain ⟨hi, N, hch, hN, he⟩ := hr.chosen hl
  obtain ⟨hnum, b, hb, rfl, -, rfl⟩ := hl.event _ hev
  rw [entryAt_eq hnum hi, (hl.run.chosen_held quorums_meet hch hb hV).getElem?_eq hch.1.le
    (by omega), he]

end OnRecord

/-- Moreover the entries that clients wait for stay in their places. -/
def Acknowledging (s : Cluster n) (a : Action n) : Prop := Replicating s a ∧ KeepsWaiting s a

instance (s : Cluster n) (a : Action n) : Decidable (Acknowledging s a) :=
  inferInstanceAs (Decidable (_ ∧ _))

/-- Where what is applied is safe and applied in order, and the entries waited for stay in their
places: at any time after a request is answered with success, the entry with its operation and path
is what every node has at its index as soon as it has committed that far. Every node that has
applied that many entries has applied it in that place, and no node applies anything else with its
index. Every leader of a term after the one it was answered in begins with it. -/
theorem acknowledged_durable {s s₁ s' : Cluster n} (h : (cluster n).Reach Acknowledging s)
    {x : Fin n} {c : ℕ} (hg : Acknowledging s (.clientStep x c))
    (hst : (cluster n).step s (.clientStep x c) = some s₁) {op : MetaOp} {path : Str}
    {eo : Option Entry} {resp : WriteResponse n}
    (ha : (s₁.node x).clients[c]? = some (.answered op path eo resp)) (hok : resp.status = .kOK)
    (hl : (cluster n).Later Acknowledging s₁ s') : ∃ e, eo = some e ∧ e.op = op ∧ e.value = path ∧
      ∀ y, (e.index ≤ (s'.node y).log.getLastCommitIndex →
          (s'.node y).log.getEntry e.index = some e) ∧
        (e.index ≤ (applications y s'.history).length →
          ∃ rt, (applications y s'.history)[e.index - 1]? = some (e.index, e, rt)) ∧
        (∀ k e' rt, (applications y s'.history)[k]? = some (e.index, e', rt) →
          k + 1 = e.index ∧ e' = e) ∧
        ∀ U l, .becameLeader y U l ∈ s'.history → (s.node x).currentTerm < U →
          entryAt l e.index = some e := by
  have happly : ∀ {t}, (cluster n).Reach Acknowledging t → (cluster n).Reach Applying t :=
    fun ht => ht.mono fun _ _ hg => hg.1.1
  have h' := (h.step hg hst).later hl
  have hkeep : (cluster n).Reach KeepsIndex s' := h'.mono fun _ _ hg => hg.1.2
  obtain ⟨nd, hnd, rfl⟩ := Option.map_eq_some_iff.1 hst
  rw [setNode_node, Function.update_self] at ha
  obtain ⟨e, rfl, hop, hpath, hw, -, -, hle⟩ := answered_ok hnd ha hok
  have hat := reach_atIndex (h.mono fun _ _ hg => hg.2) x _ hw e rfl
  obtain ⟨e', U, hU, hget, hrec⟩ := exists_onRecord (happly h) hat.pos hle
  obtain rfl := Option.some.inj (hget.symm.trans hat.getEntry)
  have hrec' : OnRecord s' U e'.index e' := (hrec.later (.step .refl hg hst)).later hl
  refine ⟨e', rfl, hop, hpath, fun y => ⟨hrec'.committed (happly h'), fun hlen => ?_, ?_, ?_⟩⟩
  · have hpos := hat.pos
    obtain ⟨⟨i, f, rt⟩, hk⟩ : ∃ a, (applications y s'.history)[e'.index - 1]? = some a :=
      ⟨_, List.getElem?_eq_getElem (by omega)⟩
    obtain ⟨hi, hev⟩ := applications_place hkeep hk
    obtain rfl : i = e'.index := by omega
    obtain rfl := hrec'.applied (happly h') hev
    exact ⟨rt, hk⟩
  · intro k f rt hk
    obtain ⟨hi, hev⟩ := applications_place hkeep hk
    exact ⟨hi.symm, hrec'.applied (happly h') hev⟩
  · exact fun V l hev hV => hrec'.leads (happly h') hev (hU.trans_lt hV)

/-- Node `0` answers its client, and then node `1` becomes leader with the entry. -/
theorem acknowledged_durable_next :
    ∃ s s₁ s' l e, (cluster 3).Reach Acknowledging s ∧
      (cluster 3).step s (.clientStep 0 0) = some s₁ ∧ (cluster 3).Later Acknowledging s₁ s' ∧
      .becameLeader 1 2 l ∈ s'.history ∧ e.op = .kMkdir ∧ e.value = ['/', 'a'] ∧
      entryAt l e.index = some e := by
  let s := (cluster 3).run Acknowledging start3 (readyToCommit ++ [.aeReturn 3])
  have hs : (cluster 3).Reach Acknowledging s := Runs.Sys.reach_run reach_start3 (by decide +kernel)
  let s₁ := ((cluster 3).step s (.clientStep 0 0)).get (by decide +kernel)
  have hst : (cluster 3).step s (.clientStep 0 0) = some s₁ := (Option.some_get _).symm
  let s' := (cluster 3).run Acknowledging s₁ (elect 1 2 1)
  have hl : (cluster 3).Later Acknowledging s₁ s' := Runs.Sys.later_run (by decide +kernel)
  have ha : (s₁.node 0).clients[0]? = some (.answered .kMkdir ['/', 'a']
      (some ⟨1, 1, .kMkdir, ['/', 'a']⟩) { status := .kOK }) := by decide +kernel
  obtain ⟨e, -, hop, hpath, hall⟩ :=
    acknowledged_durable hs (by decide +kernel) hst ha rfl hl
  have hev : .becameLeader 1 2 [⟨1, 1, .kMkdir, ['/', 'a']⟩] ∈ s'.history := by decide +kernel
  exact ⟨s, s₁, s', _, e, hs, hst, hl, hev, hop, hpath, (hall 1).2.2.2 _ _ hev (by decide +kernel)⟩

section Stuck

theorem exists_write {t : FSTree Unit} {ws ws' : List (MetaOp × Str)} {w : MetaOp × Str}
    {r : FSTree Unit × List Bool} (h : t.writes (ws ++ w :: ws') = some r) :
    ∃ t' bs, t.writes ws = some (t', bs) ∧ t'.write w ≠ none := by
  obtain ⟨t', bs, _, hws, hw, -⟩ := Answers.run_append.1 h
  obtain ⟨_, _, _, hone, -⟩ := Answers.run_cons_eq_some.1 hw
  exact ⟨t', bs, hws, by rw [hone]; exact Option.some_ne_none _⟩

variable {s s' : Cluster n} {x y : Fin n} {i c : ℕ} {e : Entry}

theorem length_applications (h : (cluster n).Reach Replicating s)
    (hth : (s.node x).fsThread = .apply i c) : i = (applications x s.history).length + 1 := by
  have hplace := (reach_counted (Replicating.keepsIndex h) x).1.place
  rw [hth] at hplace
  exact hplace.1

theorem writesOf_isPrefix (h : (cluster n).Reach Replicating s')
    (hl : (cluster n).Later Replicating s s')
    (hlen : (applications x s.history).length ≤ (applications y s'.history).length) :
    writesOf (applications x s.history) <+: writesOf (applications y s'.history) := by
  obtain ⟨ws, -, hpre⟩ := exists_common (L := fun z => writesOf (applications z s'.history))
    (writesOf_agree h)
  refine List.prefix_of_prefix_length_le (((applications_later hl x).map _).trans (hpre x))
    (hpre y) ?_
  rwa [writesOf, writesOf, List.length_map, List.length_map]

theorem writes_of_stuck (h : (cluster n).Reach Replicating s)
    (hth : (s.node x).fsThread = .apply i c) (he : (s.node x).log.getEntry i = some e)
    {env : Ptr → Alloc} (hstuck : (cluster n).step s (.fsStep x env) = none) :
    ∃ t bs, FSTree.writes .empty (writesOf (applications x s.history)) = some (t, bs) ∧
      t.write (e.op, e.value) = none := by
  obtain ⟨spec, hserves⟩ := reach_serves h x
  obtain ⟨_, bs, hrun, -, -, rfl⟩ := hserves.writes
  obtain ⟨hv, call, hc⟩ := reach_call h (LogManager.mem_of_getEntry he).1 env
  refine ⟨_, bs, hrun, (Entry.write_eq_none hc spec).2 ?_⟩
  rcases hserves.applyEntry hc hv with ⟨-, hnone⟩ | ⟨_, _, _, hsome, -⟩
  · exact hnone
  · cases ((fsStep_apply_eq_none hth he env).1 hstuck).symm.trans hsome

/-- In a run in which what is applied is safe and applied in order: where a node has no result for
the next entry, no node ever applies that entry or one after it. -/
theorem stuck_everywhere (h : (cluster n).Reach Replicating s)
    (hth : (s.node x).fsThread = .apply i c) (he : (s.node x).log.getEntry i = some e)
    {env : Ptr → Alloc} (hstuck : (cluster n).step s (.fsStep x env) = none)
    (hl : (cluster n).Later Replicating s s') : (applications y s'.history).length < i := by
  have h' := h.later hl
  obtain rfl := length_applications h hth
  by_contra hlen
  obtain ⟨⟨j, f, rt⟩, hk⟩ :
      ∃ a, (applications y s'.history)[(applications x s.history).length]? = some a :=
    ⟨_, List.getElem?_eq_getElem (by omega)⟩
  obtain ⟨rfl, hev⟩ := applications_place (Replicating.keepsIndex h') hk
  obtain ⟨e', U, -, he', hrec⟩ := exists_onRecord (Replicating.applying h) (Nat.succ_pos _)
    (reach_gateOk h x _ (by rw [hth]; rfl))
  obtain rfl := Option.some.inj (he'.symm.trans he)
  obtain rfl := (hrec.later hl).applied (Replicating.applying h') hev
  obtain ⟨rest, hrest⟩ := writesOf_isPrefix (x := x) (y := y) h' hl (by omega)
  have hget : (writesOf (applications y s'.history))[(applications x s.history).length]? =
      some (f.op, f.value) := by rw [writesOf, List.getElem?_map, hk, Option.map_some]
  rw [← hrest, List.getElem?_append_right (by simp [writesOf])] at hget
  obtain ⟨rest, rfl⟩ : ∃ rest', rest = (f.op, f.value) :: rest' := by
    refine List.head?_eq_some_iff.1 ?_
    simpa [writesOf, List.head?_eq_getElem?] using hget
  obtain ⟨_, hserves⟩ := reach_serves h' y
  obtain ⟨_, _, hrun, -⟩ := hserves.writes
  rw [← hrest] at hrun
  obtain ⟨t, _, hrun, hwrite⟩ := exists_write hrun
  obtain ⟨t', _, hrun', hnone⟩ := writes_of_stuck h hth he hstuck
  obtain rfl := (Prod.mk.inj (Option.some.inj (hrun'.symm.trans hrun))).1
  exact hwrite hnone

/-- The file `/f` is made, and the directory `/f/g` is asked for. Node `2` has no result for it, and
node `0` goes on to apply the first entry, and no other. -/
theorem stuck_everywhere_two :
    ∃ s s', (cluster 3).Reach Replicating s ∧ (s.node 2).fsThread = .apply 2 0 ∧
      (cluster 3).step s (.fsStep 2 fun _ => ⟨0, 0⟩) = none ∧
      (cluster 3).Later Replicating s s' ∧ (applications 0 s'.history).length = 1 ∧
      (applications 0 s'.history).length < 2 := by
  let s := (cluster 3).run Replicating start3 (readyToCommit ['/', 'f'] .createFile ++
    [.aeReturn 3] ++ call 0 2 4 ++ [.aeReturn 4] ++ applyNext 2 ++
    List.replicate 2 (.fsStep 2 fun _ => ⟨0, 0⟩) ++ write 0 1 ['/', 'f', '/', 'g'] ++
    call 0 1 5 ++ [.aeReturn 5] ++ call 0 2 6 ++ [.aeReturn 6] ++ call 0 2 7 ++
    List.replicate 4 (.fsStep 2 fun _ => ⟨0, 0⟩))
  have hs : (cluster 3).Reach Replicating s := Runs.Sys.reach_run reach_start3 (by decide +kernel)
  have hth : (s.node 2).fsThread = .apply 2 0 := by decide +kernel
  have he : (s.node 2).log.getEntry (2 : ℕ) = some ⟨1, 2, .kMkdir, ['/', 'f', '/', 'g']⟩ := by
    decide +kernel
  have hstuck : (cluster 3).step s (.fsStep 2 fun _ => ⟨0, 0⟩) = none := by
    rw [← Option.isNone_iff_eq_none]
    decide +kernel
  let s' := (cluster 3).run Replicating s (applyNext 0)
  have hl : (cluster 3).Later Replicating s s' := Runs.Sys.later_run (by decide +kernel)
  exact ⟨s, s', hs, hth, hstuck, hl, by decide +kernel, stuck_everywhere hs hth he hstuck hl⟩

end Stuck

end RaftFS
