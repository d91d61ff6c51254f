import RaftFS.Notification
import RaftFS.Proofs.Safety

/-!
# The notification that is missed

Each step of `RaftFS.Cluster` that commits is a commit and a notification with nothing in between
(`commits_cases`), so its runs are among these (`reach_settled`). `FSUpdateLoop` may be past its
test and not yet blocked when the notification comes, and then it misses it. Where that does not
happen it is never blocked with entries to apply, and where it does its next step blocks it so
(`never_sleeps_on_work`).
-/

namespace RaftFS

variable {n : ℕ}

open Cluster

namespace Node

variable {nd nd' : Node n} {id : Fin n} {req : AppendEntriesRequest n}
  {resp : AppendEntriesResponse}

/-- The commit index read is the one set. -/
def ReadsCommit (nd : Node n) : Prop := nd.log.getLastCommitIndex = nd.log.lastCommitedIndex

theorem ReadsCommit.of_ne (h : nd.log.memoryLog ≠ []) : ReadsCommit nd :=
  LogManager.getLastCommitIndex_of_ne h

theorem ReadsCommit.of_log (h : ReadsCommit nd) (hl : nd'.log = nd.log) : ReadsCommit nd' := by
  unfold ReadsCommit
  rw [hl]
  exact h

/-- What a thread that holds the mutex leaves to `FSUpdateLoop`: with a new commit index a
notification, and otherwise the commit index that was there. -/
structure Leaves (nd nd' : Node n) (commits : Prop) : Prop where
  fs : nd'.fs = nd.fs
  notified : commits → nd'.fsThread = nd.notifyFS.fsThread ∧ nd'.log.memoryLog ≠ []
  silent : ¬ commits → nd'.fsThread = nd.fsThread ∧
    nd'.log.lastCommitedIndex = nd.log.lastCommitedIndex ∧
    (nd'.log.memoryLog ≠ [] ∨ nd'.log = nd.log)

theorem onAppendEntries_leaves (h : onAppendEntries req nd = some (nd', resp)) :
    Leaves nd nd' (FollowsCommit req nd) := by
  unfold onAppendEntries at h
  split_ifs at h with h1
  · obtain ⟨rfl, -⟩ := Prod.mk.inj (Option.some.inj h)
    exact ⟨rfl, fun hc => absurd hc.1 (not_le.2 h1), fun _ => ⟨rfl, rfl, .inr rfl⟩⟩
  · obtain ⟨role, leader, pool, hcu, -⟩ := catchUp_eq req (not_lt.1 h1)
    simp only [hcu, Option.bind_eq_bind, Option.bind_eq_some_iff] at h
    obtain ⟨⟨log, ok⟩, hst, nd1, hfc, h⟩ := h
    have hnd : nd1 = nd' := by
      split_ifs at h
      all_goals exact (Prod.mk.inj (Option.some.inj h)).1
    subst hnd
    obtain ⟨hlast, hlog⟩ := storeEntries_laid (not_lt.1 h1) hst
    have hiff : FollowsCommit req nd ↔ log.getLastCommitIndex < req.leaderCommitIndex := by
      simp only [FollowsCommit, hst, Option.mem_some_iff, exists_eq_left', not_lt.1 h1, true_and]
    rw [hiff]
    unfold followCommit at hfc
    split_ifs at hfc with hc
    · obtain ⟨log', hset, rfl⟩ := Option.map_eq_some_iff.1 hfc
      obtain ⟨hne, hm, -⟩ := LogManager.setLastCommitIndex_spec hset
      exact ⟨rfl, fun _ => ⟨rfl, hm ▸ hne⟩, fun hn => absurd hc hn⟩
    · obtain rfl := Option.some.inj hfc
      refine ⟨rfl, fun hn => absurd hn hc, fun _ => ⟨rfl, hlast, ?_⟩⟩
      rcases hlog with ⟨q, -, -, -, hl⟩ | ⟨-, hl, -⟩
      · exact .inl hl.ne_nil_of
      · exact .inr hl

theorem Leaves.of_same {commits : Prop} (hn : ¬ commits) (hfs : nd'.fs = nd.fs)
    (hth : nd'.fsThread = nd.fsThread) (hl : nd'.log = nd.log) : Leaves nd nd' commits :=
  ⟨hfs, fun hc => absurd hc hn, fun _ => ⟨hth, by rw [hl], .inr hl⟩⟩

theorem recordAck_leaves {commit : Option ℕ} (h : recordAck id req resp nd = some (nd', commit)) :
    Leaves nd nd' (nd.log.getLastCommitIndex ≠ (countAcks id nd.log.getLastCommitIndex req.entries
      nd.pendingEntries nd.log.getLastCommitIndex).2) := by
  by_cases hc : nd.log.getLastCommitIndex = (countAcks id nd.log.getLastCommitIndex req.entries
      nd.pendingEntries nd.log.getLastCommitIndex).2
  · simp only [recordAck, resetNextIndex, ne_eq, hc.symm, not_true_eq_false, if_false,
      Option.some.injEq, Prod.mk.injEq] at h
    obtain ⟨rfl, -⟩ := h
    exact .of_same (not_not.2 hc) rfl rfl rfl
  · simp only [recordAck, resetNextIndex, ne_eq, hc, not_false_eq_true, if_true,
      Option.map_eq_some_iff, Prod.mk.injEq] at h
    obtain ⟨log, hset, rfl, -⟩ := h
    obtain ⟨hne, hm, -⟩ := LogManager.setLastCommitIndex_spec hset
    exact ⟨rfl, fun _ => ⟨rfl, hm ▸ hne⟩, fun hn => absurd hc hn⟩

theorem onAppendEntriesResponse_leaves {commit : Option ℕ} {next : Next}
    (h : onAppendEntriesResponse id req resp nd = some (nd', commit, next)) :
    Leaves nd nd' (CountsCommit id req resp nd) ∧
      (CountsCommit id req resp nd → next = .wait) := by
  unfold onAppendEntriesResponse at h
  split_ifs at h with ht hs he hlt
  · obtain ⟨rfl, -⟩ := Prod.mk.inj (Option.some.inj h)
    have hn : ¬ CountsCommit id req resp nd := fun hc => hc.2.2.1 (List.isEmpty_iff.1 he)
    exact ⟨.of_same hn rfl rfl rfl, fun hc => absurd hc hn⟩
  · obtain ⟨⟨nd1, c⟩, hr, h⟩ := Option.map_eq_some_iff.1 h
    obtain ⟨rfl, hnext⟩ := Prod.mk.inj h
    have hentries : req.entries ≠ [] := fun h0 => he (List.isEmpty_iff.2 h0)
    have hl := recordAck_leaves hr
    refine ⟨⟨hl.fs, fun hc => hl.notified hc.2.2.2, fun hn => hl.silent fun hne => ?_⟩,
      fun _ => (Prod.mk.inj hnext).2.symm⟩
    exact hn ⟨ht, hs, hentries, hne⟩
  · obtain ⟨rfl, -⟩ := Prod.mk.inj (Option.some.inj h)
    have hn : ¬ CountsCommit id req resp nd := fun hc => hs hc.2.1
    unfold backOff resetNextIndex
    split_ifs
    · exact ⟨.of_same hn rfl rfl rfl, fun hc => absurd hc hn⟩
    · exact ⟨.of_same hn rfl rfl rfl, fun hc => absurd hc hn⟩
  all_goals
    obtain ⟨rfl, -⟩ := Prod.mk.inj (Option.some.inj h)
    have hn : ¬ CountsCommit id req resp nd := fun hc => ht hc.1
    exact ⟨.of_same hn rfl rfl rfl, fun hc => absurd hc hn⟩

/-- What others leave of a node without a notification, as its `FSUpdateLoop` sees it. -/
structure Undisturbed (nd nd' : Node n) : Prop where
  fs : nd'.fs = nd.fs
  fsThread : nd'.fsThread = nd.fsThread ∨ nd'.fsThread = .test
  lastCommited : nd'.log.lastCommitedIndex = nd.log.lastCommitedIndex
  memoryLog : nd'.log.memoryLog ≠ [] ∨ nd'.log = nd.log

theorem Undisturbed.of_same (hfs : nd'.fs = nd.fs) (hth : nd'.fsThread = nd.fsThread)
    (hl : nd'.log = nd.log) : Undisturbed nd nd' :=
  ⟨hfs, .inl hth, by rw [hl], .inr hl⟩

theorem Leaves.undisturbed {commits : Prop} (h : Leaves nd nd' commits) (hn : ¬ commits) :
    Undisturbed nd nd' :=
  ⟨h.fs, .inl (h.silent hn).1, (h.silent hn).2.1, (h.silent hn).2.2⟩

theorem Leaves.notifyFS {commits : Prop} (h : Leaves nd nd' commits) (hc : commits) :
    Node.notifyFS { nd' with fsThread := nd.fsThread } = nd' := by
  have hth : nd'.fsThread = if nd.fsThread = .blocked then .test else nd.fsThread :=
    (h.notified hc).1
  simp only [Node.notifyFS, ← hth]

theorem ReadsCommit.undisturbed (h : ReadsCommit nd) (hu : Undisturbed nd nd') :
    ReadsCommit nd' :=
  hu.memoryLog.elim .of_ne h.of_log

/-- Past its test, `FSUpdateLoop` blocks with nothing to do. -/
def Alert (nd : Node n) : Prop :=
  nd.fsThread = .blocking ∨ nd.fsThread = .blocked →
    nd.log.getLastCommitIndex = nd.fs.commitedIndex

theorem Alert.undisturbed (h : Alert nd) (hr : ReadsCommit nd) (hu : Undisturbed nd nd') :
    Alert nd' := by
  intro hth
  have hthread : nd'.fsThread = nd.fsThread := hu.fsThread.resolve_right fun ht => by
    simp [ht] at hth
  calc nd'.log.getLastCommitIndex = nd'.log.lastCommitedIndex := hr.undisturbed hu
    _ = nd.log.lastCommitedIndex := hu.lastCommited
    _ = nd.log.getLastCommitIndex := hr.symm
    _ = nd.fs.commitedIndex := h (hthread ▸ hth)
    _ = nd'.fs.commitedIndex := by rw [hu.fs]

theorem Alert.fsUpdateLoop {env : Ptr → Alloc} {applied : Option (ℕ × Entry × Option Bool)}
    (h : Alert nd) (hfs : nd.fsUpdateLoop env = some (nd', applied)) : Alert nd' := by
  obtain ⟨fs, th, m, rfl, hm, hs⟩ := fsUpdateLoop_cases hfs
  intro hth
  simp only at hth
  cases hs with
  | block htest =>
    simp only [Node.fsUpdateLoop, htest] at hfs
    split_ifs at hfs with hne
    · simp at hfs
    · exact (not_not.1 hne).trans hm.symm
  | blocked hblocking => exact (h (.inl hblocking)).trans hm.symm
  | gate _ hgate =>
    rcases hgate with rfl | rfl | rfl
    all_goals simp at hth
  | _ => simp at hth

end Node

namespace Cluster

variable {s s' t : Cluster n} {a : Action n} {x y : Fin n} {rest : Rest n}

/-- What an action does as far as the notification. With the notification made and the rest done it
is the step. -/
theorem commits_cases (h : s.commits a = some (y, rest, t)) :
    ∃ nd, (s.node y).Leaves nd True ∧
      t.node = Function.update s.node y { nd with fsThread := (s.node y).fsThread } ∧
      s.mutex? a = some y ∧ (t.notifyAll y).finish y rest = s.step a := by
  cases a with
  | aeHandle k =>
    obtain ⟨c, hc, h⟩ := Option.bind_eq_some_iff.1 h
    split_ifs at h with hif
    obtain ⟨⟨nd, resp⟩, hap, h⟩ := Option.bind_eq_some_iff.1 h
    obtain ⟨rfl, rfl, rfl⟩ : c.dst = y ∧ .respond k resp = rest ∧ s.setUnnotified c.dst nd = t := by
      simpa using h
    have hl := Node.onAppendEntries_leaves hap
    refine ⟨nd, ⟨hl.fs, fun _ => hl.notified hif.2, fun hn => absurd trivial hn⟩, rfl, ?_, ?_⟩
    · simp [mutex?, hc]
    · have hnode : (s.setUnnotified c.dst nd).notifyAll c.dst = s.setNode c.dst nd := by
        simp [notifyAll, setUnnotified, setNode, hl.notifyFS hif.2]
      rw [hnode]
      simp [finish, step, hc, hif.1, hap, setNode]
  | aeReturn k =>
    obtain ⟨c, hc, h⟩ := Option.bind_eq_some_iff.1 h
    split at h
    · rename_i resp hp
      split_ifs at h with hif
      obtain ⟨⟨nd, commit, next⟩, hap, h⟩ := Option.bind_eq_some_iff.1 h
      obtain ⟨rfl, rfl, rfl⟩ := by simpa using h
      obtain ⟨hl, hnext⟩ := Node.onAppendEntriesResponse_leaves hap
      refine ⟨nd, ⟨hl.fs, fun _ => hl.notified hif.2, fun hn => absurd trivial hn⟩, rfl, ?_, ?_⟩
      · simp [mutex?, hc]
      · obtain rfl := hnext hif.2
        have hnode : ∀ ev, ((s.setUnnotified c.src nd).log ev).notifyAll c.src =
            (s.setNode c.src nd).log ev := fun ev => by
          simp [notifyAll, setUnnotified, setNode, Cluster.log, hl.notifyFS hif.2]
        rw [hnode]
        simp [finish, step, hc, hp, hif.1, takeAppendEntries, hap, goOn]
    · cases h
  | _ => cases h

/-- What an action that comes to no notification leaves of a node. -/
theorem step_silent (hst : s.step a = some s') (hn : s.commits a = none) (x : Fin n) :
    (∃ env nd applied, (s.node x).fsUpdateLoop env = some (nd, applied) ∧
        Node.Undisturbed nd (s'.node x)) ∨ Node.Undisturbed (s.node x) (s'.node x) := by
  obtain ⟨t, hch, hr⟩ := step_changes hst
  obtain ⟨f, hf⟩ := hr.node x
  rw [hf]
  have hgo : ∀ nd : Node n, Node.Undisturbed nd { t.node x with remoteThread := f } ↔
      Node.Undisturbed nd (t.node x) := fun nd => ⟨fun hu => ⟨hu.1, hu.2, hu.3, hu.4⟩,
    fun hu => ⟨hu.1, hu.2, hu.3, hu.4⟩⟩
  simp only [hgo]
  have hother : ∀ {y : Fin n} {nd : Node n}, Node.Undisturbed (s.node y) nd →
      Node.Undisturbed (s.node x) (Function.update s.node y nd x) := fun hu =>
    forall_update (P := fun y nd => Node.Undisturbed (s.node y) nd)
      (fun _ => .of_same rfl rfl rfl) hu x
  cases hch with
  | wake | aeSend | aeFail | rvSend | rvFail => exact .inr (.of_same rfl rfl rfl)
  | @timeout y h =>
    have hw := Node.startLeaderElection_work y (s.node y)
    exact .inr (hother (.of_same hw.fs hw.fsThread hw.log))
  | @aeHandle k c nd resp hc hp hap =>
    refine .inr (hother ((Node.onAppendEntries_leaves hap).undisturbed fun hfollows => ?_))
    simp [commits, hc, hp, hfollows, hap] at hn
  | @aeTake a k c resp nd commit next hc ha hap =>
    refine .inr (hother ((Node.onAppendEntriesResponse_leaves hap).1.undisturbed fun hcounts => ?_))
    rcases ha with ⟨rfl, hp⟩ | ⟨-, rfl⟩
    · obtain ⟨c', hc', hst⟩ := Option.bind_eq_some_iff.1 hst
      obtain rfl := Option.some.inj (hc.symm.trans hc')
      simp only [hp] at hst
      split_ifs at hst with hin
      simp [commits, hc, hp, hin, hcounts, hap] at hn
    · cases hcounts.2.1
  | @rvHandle k c hc hp =>
    have hw := Node.onRequestVote_work c.req (s.node c.dst)
    exact .inr (hother (.of_same hw.fs hw.fsThread hw.log))
  | @rvTake a k c resp nd won next hc ha hap =>
    have hw := Node.onRequestVoteResponse_work hap
    exact .inr (hother (.of_same hw.fs hw.fsThread hw.log))
  | clientRequest => exact .inr (hother (.of_same rfl rfl rfl))
  | clientStep h =>
    refine .inr (hother ?_)
    obtain ⟨_, _, log, -, hs, rfl⟩ := Node.onMetaOperation_cases h
    cases hs with
    | append => exact ⟨rfl, .inl rfl, rfl, .inl (by simp [LogManager.append])⟩
    | _ => exact .of_same rfl rfl rfl
  | @fsStep y env nd applied h =>
    simp only [log_node, setNode_node, Function.update_apply]
    split_ifs with hx
    · subst hx
      exact .inl ⟨env, nd, applied, h, .of_same rfl rfl rfl⟩
    · exact .inr (.of_same rfl rfl rfl)
  | fsWake => exact .inr (hother ⟨rfl, .inr rfl, rfl, .inr rfl⟩)

theorem finish_node (h : s.finish x rest = some s') :
    ∃ f, s'.node = Function.update s.node x { s.node x with remoteThread := f } := by
  cases rest with
  | respond k resp =>
    obtain ⟨c, -, rfl⟩ := Option.map_eq_some_iff.1 h
    exact ⟨(s.node x).remoteThread, (Function.update_eq_self x s.node).symm⟩
  | wait r =>
    obtain rfl := Option.some.inj h
    exact ⟨_, rfl⟩

end Cluster

namespace FineCluster

/-- `FSUpdateLoop` is not past its test when it is notified that it has entries to apply. -/
def Heard (s : FineCluster n) : FineAction n → Prop
  | .notify x => (s.node x).fsThread = .blocking →
      (s.node x).log.getLastCommitIndex = (s.node x).fs.commitedIndex
  | .act _ => True

instance (s : FineCluster n) (a : FineAction n) : Decidable (Heard s a) :=
  match a with
  | .notify x => inferInstanceAs (Decidable ((s.node x).fsThread = .blocking → _))
  | .act _ => .isTrue trivial

/-- The step of a thread with the mutex is a commit that leaves a notification to make, or it is a
step of the cluster that needs none. -/
theorem act_cases {s s' : FineCluster n} {a : Action n} (h : s.step (.act a) = some s') :
    (∃ x rest, s.commits a = some (x, rest, s'.toCluster) ∧
        s'.owed = Function.update s.owed x (some rest)) ∨
      s.commits a = none ∧ s.toCluster.step a = some s'.toCluster ∧ s'.owed = s.owed := by
  simp only [step] at h
  split_ifs at h
  split at h
  · rename_i x rest t hc
    obtain rfl := Option.some.inj h
    exact .inl ⟨x, rest, hc, rfl⟩
  · rename_i hc
    obtain ⟨t, ht, rfl⟩ := Option.map_eq_some_iff.1 h
    exact .inr ⟨hc, ht, rfl⟩

theorem notify_cases {s s' : FineCluster n} {x : Fin n} (h : s.step (.notify x) = some s') :
    ∃ f, s'.node = Function.update s.node x { (s.node x).notifyFS with remoteThread := f } ∧
      s'.owed = Function.update s.owed x none := by
  obtain ⟨rest, -, h⟩ := Option.bind_eq_some_iff.1 h
  obtain ⟨t, ht, h⟩ := Option.bind_eq_some_iff.1 h
  obtain rfl := Option.some.inj h
  obtain ⟨f, hf⟩ := finish_node ht
  refine ⟨f, ?_, rfl⟩
  simpa [notifyAll] using hf

/-- `FSUpdateLoop` blocks with nothing to do where no notification is to come. -/
def Watches (owed : Option (Rest n)) (nd : Node n) : Prop :=
  nd.ReadsCommit ∧ (owed = none → nd.Alert)

theorem Watches.undisturbed {owed : Option (Rest n)} {nd nd' : Node n} (h : Watches owed nd)
    (hu : nd.Undisturbed nd') : Watches owed nd' :=
  ⟨h.1.undisturbed hu, fun ho => (h.2 ho).undisturbed h.1 hu⟩

theorem Watches.step {s s' : FineCluster n} {a : FineAction n}
    (hI : ∀ x, Watches (s.owed x) (s.node x)) (hg : Heard s a) (h : s.step a = some s')
    (x : Fin n) : Watches (s'.owed x) (s'.node x) := by
  cases a with
  | act a =>
    rcases act_cases h with ⟨y, rest, hc, ho⟩ | ⟨hc, hst, ho⟩
    · obtain ⟨nd, hl, hnode, -, -⟩ := commits_cases hc
      rw [ho, hnode]
      rcases eq_or_ne x y with rfl | hxy
      · simp only [Function.update_self]
        exact ⟨.of_ne (hl.notified trivial).2, fun hno => by cases hno⟩
      · simp only [Function.update_of_ne hxy]
        exact hI x
    · rw [ho]
      rcases step_silent hst hc x with ⟨env, nd, applied, hfs, hu⟩ | hu
      · refine Watches.undisturbed ⟨?_, fun hno => ((hI x).2 hno).fsUpdateLoop hfs⟩ hu
        obtain ⟨_, _, _, rfl, -⟩ := Node.fsUpdateLoop_cases hfs
        exact (hI x).1.of_log rfl
      · exact (hI x).undisturbed hu
  | notify y =>
    obtain ⟨f, hnode, ho⟩ := notify_cases h
    rw [ho, hnode]
    rcases eq_or_ne x y with rfl | hxy
    · simp only [Function.update_self]
      refine ⟨(hI x).1.of_log rfl, fun _ hth => ?_⟩
      -- a blocked loop is woken, and one about to block has nothing to do
      simp only [Node.notifyFS] at hth ⊢
      split_ifs at hth with hb
      · simp at hth
      · exact hg (hth.resolve_right hb)
    · simp only [Function.update_of_ne hxy]
      exact hI x

theorem reach_watches {s : FineCluster n} (h : (fineCluster n).Reach Heard s) (x : Fin n) :
    Watches (s.owed x) (s.node x) := by
  refine h.inv (I := fun s => ∀ x, Watches (s.owed x) (s.node x)) ?_ ?_ x
  · rintro _ ⟨env, junk, rfl⟩ x
    exact ⟨rfl, fun _ hth => by simp [settled, Cluster.init, Node.init] at hth⟩
  · exact fun s a s' _ hI hg hst => Watches.step hI hg hst

/-- A step of the cluster is the same here, or it is a commit and then the notification. -/
theorem exec_settled {s s' : Cluster n} {a : Action n} (h : s.step a = some s') :
    ∃ as, (fineCluster n).exec Runs.Sys.anyStep (settled s) as = some (settled s') := by
  have hfree : ¬ ∃ x ∈ (settled s).mutex? a, ((settled s).owed x).isSome := by simp [settled]
  rcases hc : s.commits a with _ | ⟨x, rest, t⟩
  · refine ⟨[.act a], ?_⟩
    have hact : (settled s).step (.act a) = some (settled s') := by
      simp only [step, if_neg hfree]
      simp [settled, hc, h]
    simp [Runs.Sys.exec, Runs.Sys.anyStep, fineCluster, hact]
  · obtain ⟨nd, -, -, -, hfin⟩ := commits_cases hc
    rw [h] at hfin
    refine ⟨[.act a, .notify x], ?_⟩
    have hact : (settled s).step (.act a) =
        some { t with owed := Function.update (fun _ => none) x (some rest) } := by
      simp only [step, if_neg hfree]
      simp [settled, hc]
    have hnotify : step { t with owed := Function.update (fun _ => none) x (some rest) }
        (.notify x) = some (settled s') := by
      simp [step, hfin, settled]
    simp [Runs.Sys.exec, Runs.Sys.anyStep, fineCluster, hact, hnotify]

/-- Every run of the cluster is one of this. -/
theorem reach_settled {s : Cluster n} (h : (cluster n).Reach Runs.Sys.anyStep s) :
    (fineCluster n).Reach Runs.Sys.anyStep (settled s) := by
  induction h with
  | init hs =>
    obtain ⟨env, junk, rfl⟩ := hs
    exact .init ⟨env, junk, rfl⟩
  | step _ _ hst ih =>
    obtain ⟨as, has⟩ := exec_settled hst
    exact Runs.Sys.reach_of_exec as ih has

/-- A notification that `FSUpdateLoop` misses: its next step blocks it. -/
theorem sleeps_of_missed {s s' : FineCluster n} {x : Fin n} (h : s.step (.notify x) = some s')
    (hg : ¬ Heard s (.notify x)) (env : Ptr → Alloc) :
    ∃ t, s'.step (.act (.fsStep x env)) = some t ∧ SleepsOnWork t x := by
  obtain ⟨hth, hne⟩ := Classical.not_imp.1 hg
  obtain ⟨f, hnode, ho⟩ := notify_cases h
  have hx : s'.node x = { s.node x with remoteThread := f } := by
    rw [hnode, Function.update_self]
    simp [Node.notifyFS, hth]
  have hfs : (s'.node x).fsUpdateLoop env =
      some ({ s'.node x with fsThread := .blocked }, none) := by
    simp [Node.fsUpdateLoop, hx, hth]
  let t := s'.setNode x { s'.node x with fsThread := .blocked }
  have hst : s'.toCluster.step (.fsStep x env) = some t := by
    simp [Cluster.step, hfs, t, Cluster.log, setNode]
  refine ⟨{ t with owed := s'.owed }, by simp [step, mutex?, commits, hst], ?_⟩
  have hnode : t.node x = { s.node x with remoteThread := f, fsThread := .blocked } := by
    simp [t, hx]
  refine ⟨?_, ?_, by simp [ho]⟩
  · simp only [hnode]
  · simp only [hnode]
    exact hne

end FineCluster

open FineCluster

/-- In every run in which `FSUpdateLoop` is never notified between its test and its wait that it has
entries to apply, it is never blocked with entries to apply when no thread has a notification to
make. After such a notification its next step blocks it so. -/
theorem never_sleeps_on_work {s : FineCluster n} (h : (fineCluster n).Reach Heard s) (x : Fin n) :
    ¬ SleepsOnWork s x ∧
      ∀ s', (fineCluster n).step s (.notify x) = some s' → ¬ Heard s (.notify x) →
        ∀ env, ∃ t, (fineCluster n).step s' (.act (.fsStep x env)) = some t ∧ SleepsOnWork t x :=
  ⟨fun hs => hs.2.1 ((reach_watches h x).2 hs.2.2 (.inr hs.1)),
    fun _ hst hg env => sleeps_of_missed hst hg env⟩

/-- Node `0` has committed its entry, and before that `FSUpdateLoop` of `x` has tested and not yet
blocked. -/
def beforeNotification (x : Fin 3) : List (FineAction 3) :=
  List.map .act (readyToCommit ++ [.fsStep x fun _ => ⟨0, 0⟩, .aeReturn 3])

theorem never_sleeps_on_work_committed :
    ∃ s s' t, (fineCluster 3).Reach Heard s ∧ (s.node 0).fsThread = .blocking ∧
      (s.node 0).log.getLastCommitIndex = 1 ∧ (s.node 0).fs.commitedIndex = 0 ∧
      ¬ SleepsOnWork s 0 ∧ (fineCluster 3).step s (.notify 0) = some s' ∧
      (fineCluster 3).step s' (.act (.fsStep 0 fun _ => ⟨0, 0⟩)) = some t ∧ SleepsOnWork t 0 := by
  let s := (fineCluster 3).run Heard (settled start3) (beforeNotification 0)
  have hs : (fineCluster 3).Reach Heard s :=
    Runs.Sys.reach_run (.init ⟨_, _, rfl⟩) (by decide +kernel)
  let s' := ((fineCluster 3).step s (.notify 0)).get (by decide +kernel)
  have hst : (fineCluster 3).step s (.notify 0) = some s' := (Option.some_get _).symm
  have hth : (s.node 0).fsThread = .blocking := by decide +kernel
  have hc : (s.node 0).log.getLastCommitIndex = 1 := by decide +kernel
  have hfs : (s.node 0).fs.commitedIndex = 0 := by decide +kernel
  have hg : ¬ Heard s (.notify 0) := by decide +kernel
  obtain ⟨hawake, hmissed⟩ := never_sleeps_on_work hs 0
  obtain ⟨t, ht, hsleeps⟩ := hmissed s' hst hg fun _ => ⟨0, 0⟩
  exact ⟨s, s', t, hs, hth, hc, hfs, hawake, hst, ht, hsleeps⟩

/-- `FSUpdateLoop` of node `0` tests, an entry is committed and it is notified, and it blocks. -/
theorem sleeps_on_work :
    ∃ s, (fineCluster 3).Reach Runs.Sys.anyStep s ∧ SleepsOnWork s 0 := by
  let s := (fineCluster 3).run Runs.Sys.anyStep (settled start3)
    (beforeNotification 0 ++ [.notify 0, .act (.fsStep 0 fun _ => ⟨0, 0⟩)])
  have hs : (fineCluster 3).Reach Runs.Sys.anyStep s :=
    Runs.Sys.reach_run (.init ⟨_, _, rfl⟩) (by decide +kernel)
  have ho : (s.owed 0).isNone = true := by decide +kernel
  exact ⟨s, hs, by decide +kernel, by decide +kernel, Option.isNone_iff_eq_none.1 ho⟩

end RaftFS
