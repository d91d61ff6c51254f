import RaftFS.Proofs.Safety

/-!
# What is applied

`FSUpdateLoop` counts what it applies in a pass from `0`, and writes the count back as the index
of the namespace even if the gate has stopped the pass before its first entry. Where that does not
happen once an entry is applied, a node applies the entries of the indices `1`, `2`, ... in order
and once each (`applied_in_order`), and where it does they are applied anew (`applied_again`). What
the namespace's index covers has been applied in any run (`applied_of_le_commitedIndex`).
-/

namespace RaftFS

variable {n : ℕ}

open Cluster

/-- The last index applied in the pass, at the last test of the gate. -/
def FSThread.gated? : FSThread → Option ℕ
  | .gateFollower _ commited => some commited
  | _ => none

/-- A pass that has applied nothing is not stopped at the gate, unless the namespace has the index
`0`. -/
def KeepsIndex (s : Cluster n) : Action n → Prop
  | .fsStep x _ => (s.node x).fsThread.gated? = some 0 → (s.node x).currentRole ≠ .kFollower →
      (s.node x).fs.commitedIndex = 0
  | _ => True

instance (s : Cluster n) (a : Action n) : Decidable (KeepsIndex s a) :=
  Action.decidable (Q := True) (fun
    | .fsStep x _ => some (inferInstanceAs (Decidable ((s.node x).fsThread.gated? = some 0 →
        (s.node x).currentRole ≠ .kFollower → (s.node x).fs.commitedIndex = 0)))
    | _ => none) a

/-- Where `FSUpdateLoop` is when `k` entries are applied and the namespace has the index `m`: in a
pass the next entry is the one after the `k`th, and unless the pass has just begun it has counted
to `k`. -/
def CountsTo : FSThread → (m k : ℕ) → Prop
  | .test, m, k | .blocking, m, k | .blocked, m, k => m = k
  | .loop i c, m, k | .gateLeader i c, m, k | .gatePending i c, m, k | .gateFollower i c, m, k
  | .apply i c, m, k => i = k + 1 ∧ (c = k ∨ c = 0 ∧ m = k)
  | .finish c, _, k => c = k

/-- `k` entries are applied, none of them before it is committed, and a pass that has just begun has
an entry to apply. -/
structure Counted (nd : Node n) (k : ℕ) : Prop where
  le : k ≤ nd.log.getLastCommitIndex
  place : CountsTo nd.fsThread nd.fs.commitedIndex k
  begun : ∀ i, nd.fsThread = .loop i 0 → i ≤ nd.log.getLastCommitIndex

namespace Counted

variable {nd nd' : Node n} {k : ℕ}

theorem frame (h : Counted nd k) (hf : FSFrame nd nd') : Counted nd' k := by
  refine ⟨h.le.trans hf.commit, ?_, fun i hi => ?_⟩
  · rw [hf.fs]
    rcases hf.fsThread with hth | ⟨hb, hth⟩
    · rw [hth]
      exact h.place
    · have hp := h.place
      rw [hb] at hp
      rw [hth]
      exact hp
  · rcases hf.fsThread with hth | ⟨-, hth⟩
    · exact (h.begun i (hth ▸ hi)).trans hf.commit
    · rw [hth] at hi
      cases hi

/-- A step applies nothing and keeps the count, or applies the next entry. -/
theorem next (h : Counted nd k) (hg : GateOk nd) {m : ℕ} {th : FSThread}
    {applied : Option (ℕ × Entry × Option Bool)}
    (hkeep : nd.fsThread.gated? = some 0 → nd.currentRole ≠ .kFollower → nd.fs.commitedIndex = 0)
    (hs : nd.FSStep m th applied) :
    (applied = none ∧ CountsTo th m k ∨ ∃ e rt, applied = some (k + 1, e, rt) ∧
        k + 1 ≤ nd.log.getLastCommitIndex ∧ CountsTo th m (k + 1)) ∧
      ∀ i, th = .loop i 0 → i ≤ nd.log.getLastCommitIndex := by
  have hle := h.le
  have hp := h.place
  cases hs with
  | start hth hne =>
    rw [hth] at hp
    obtain rfl : nd.fs.commitedIndex = k := hp
    refine ⟨.inl ⟨rfl, rfl, .inr ⟨rfl, rfl⟩⟩, fun i hi => ?_⟩
    obtain ⟨rfl, -⟩ := FSThread.loop.inj hi
    omega
  | block hth | blocked hth | next hth =>
    rw [hth] at hp
    exact ⟨.inl ⟨rfl, hp⟩, fun i hi => by cases hi⟩
  | done hth hi =>
    rw [hth] at hp
    refine ⟨.inl ⟨rfl, hp.2.resolve_right ?_⟩, fun i hi => by cases hi⟩
    rintro ⟨rfl, -⟩
    exact absurd (h.begun _ hth) (not_le.2 hi)
  | gate hth hth' =>
    refine ⟨.inl ⟨rfl, ?_⟩, fun i hi => ?_⟩
    · rcases hth with hth | hth | hth
      all_goals
        rw [hth] at hp
        rcases hth' with rfl | rfl | rfl
        all_goals exact hp
    · rcases hth' with rfl | rfl | rfl
      all_goals cases hi
  | stop hth hr =>
    rw [hth] at hp hkeep
    refine ⟨.inl ⟨rfl, ?_⟩, fun i hi => by cases hi⟩
    rcases hp.2 with hc | ⟨rfl, hm⟩
    · exact hc
    · exact (hkeep rfl hr).symm.trans hm
  | @apply i c e rt hth he =>
    have hi := hg i (by rw [hth]; rfl)
    rw [hth] at hp
    obtain rfl : i = k + 1 := hp.1
    refine ⟨.inr ⟨e, rt, rfl, hi, rfl, .inl rfl⟩, fun i hi => ?_⟩
    cases hi
  | finish hth =>
    rw [hth] at hp
    exact ⟨.inl ⟨rfl, hp⟩, fun i hi => by cases hi⟩

end Counted

/-- Where no pass is stopped before its first entry once one is applied, a node applies the entries
of the indices `1`, `2`, ... in order, and each once. -/
theorem applied_in_order {s : Cluster n} (h : (cluster n).Reach KeepsIndex s) (x : Fin n) :
    ∃ k, appliedIndices x s.history = List.range' 1 k := by
  suffices hI : Counted (s.node x) (appliedIndices x s.history).length ∧
      appliedIndices x s.history = List.range' 1 (appliedIndices x s.history).length from ⟨_, hI.2⟩
  refine reach_fs (I := fun nd is => Counted nd is.length ∧ is = List.range' 1 is.length) ?_ ?_ ?_ h
    x
  · exact fun env junk => ⟨⟨Nat.zero_le _, rfl, fun i hi => by cases hi⟩, rfl⟩
  · exact fun nd nd' is hI hf => ⟨hI.1.frame hf, hI.2⟩
  · intro s x env nd applied is hr hg hst hI
    obtain ⟨fs, th, m, rfl, rfl, hs⟩ := Node.fsUpdateLoop_cases hst
    obtain ⟨hnext, hbegun⟩ := hI.1.next (reach_gateOk hr x) hg hs
    rcases hnext with ⟨rfl, hp⟩ | ⟨e, rt, rfl, hle, hp⟩
    · simp only [Option.map_none, Option.toList_none, List.append_nil]
      exact ⟨⟨hI.1.le, hp, hbegun⟩, hI.2⟩
    · simp only [Option.map_some, Option.toList_some, List.length_append, List.length_singleton]
      refine ⟨⟨hle, hp, hbegun⟩, ?_⟩
      rw [List.range'_concat, ← hI.2, Nat.one_mul, Nat.add_comm 1]

/-- Node `2` applies both entries, in two passes. -/
theorem applied_in_order_two :
    ∃ s, (cluster 3).Reach KeepsIndex s ∧ (s.node 2).fs.commitedIndex = 1 ∧
      (appliedIndices 2 s.history).length = 2 ∧
      ∃ k, appliedIndices 2 s.history = List.range' 1 k := by
  let s := (cluster 3).run KeepsIndex start3 (secondCommit ++ applyNext 2)
  have hs : (cluster 3).Reach KeepsIndex s := Runs.Sys.reach_run reach_start3 (by decide +kernel)
  exact ⟨s, hs, by decide +kernel, by decide +kernel, applied_in_order hs 2⟩

/-- Node `2` stands for election between its test of the index and its test of the role. The pass
writes back `0`, and when node `2` is a follower again it applies the first entry again. -/
theorem applied_again :
    ∃ s, (cluster 3).Reach Runs.Sys.anyStep s ∧ appliedIndices 2 s.history = [1, 1] := by
  let s := (cluster 3).run Runs.Sys.anyStep start3 (secondCommit ++
    List.replicate 3 (.fsStep 2 fun _ => ⟨0, 0⟩) ++ [.leaderTimeout 2] ++
    List.replicate 2 (.fsStep 2 fun _ => ⟨0, 0⟩) ++
    [.leaderTimeout 1, .leaderTimeout 1, .remoteWake 1 2, .rvSend 1, .rvHandle 1] ++ applyNext 2)
  exact ⟨s, Runs.Sys.reach_run reach_start3 (by decide +kernel), by decide +kernel⟩

/-- The indices that a pass has come to. -/
def Reaches : FSThread → ℕ → Prop
  | .loop i c, j | .gateLeader i c, j | .gatePending i c, j | .gateFollower i c, j
  | .apply i c, j => j < i ∨ j ≤ c
  | .finish c, j => j ≤ c
  | _, _ => False

/-- What a step makes the namespace's index or the pass reach, they reached before, or it is applied
in the step. -/
theorem reaches_next {nd : Node n} {m : ℕ} {th : FSThread}
    {applied : Option (ℕ × Entry × Option Bool)} (hs : nd.FSStep m th applied) {j : ℕ}
    (hj : j ≤ m ∨ Reaches th j) :
    j = 0 ∨ j ≤ nd.fs.commitedIndex ∨ Reaches nd.fsThread j ∨ ∃ p ∈ applied, p.1 = j := by
  cases hs with
  | start hth hne =>
    rcases hj with hj | hj | hj
    · exact .inr (.inl hj)
    · exact .inr (.inl (Nat.le_of_lt_succ hj))
    · exact .inl (Nat.le_zero.1 hj)
  | block hth | blocked hth => exact .inr (.inl (hj.resolve_right id))
  | next hth hi =>
    rw [hth]
    exact .inr (hj.imp_right .inl)
  | done hth hi | stop hth hr =>
    rw [hth]
    exact .inr (hj.imp_right fun hc => .inl (.inr hc))
  | gate hth hth' =>
    refine .inr (hj.imp_right fun hr => .inl ?_)
    rcases hth with hth | hth | hth
    all_goals
      rw [hth]
      rcases hth' with rfl | rfl | rfl
      all_goals exact hr
  | @apply i c e rt hth he =>
    rw [hth]
    refine .inr (hj.imp_right fun hr => ?_)
    have hle : j ≤ i := hr.elim Nat.le_of_lt_succ id
    rcases hle.lt_or_eq with hlt | rfl
    · exact .inl (.inl hlt)
    · exact .inr ⟨_, rfl, rfl⟩
  | finish hth =>
    rw [hth]
    exact .inr (.inr (.inl (hj.resolve_right id)))

/-- In any run, the entries up to the namespace's index have been applied. -/
theorem applied_of_le_commitedIndex {G : Runs.Guard (Cluster n) (Action n)} {s : Cluster n}
    (h : (cluster n).Reach G s) (x : Fin n) {i : ℕ} (hi : 0 < i)
    (hle : i ≤ (s.node x).fs.commitedIndex) : ∃ e rt, .applied x i e rt ∈ s.history := by
  rw [← mem_appliedIndices]
  refine reach_fs (I := fun nd is => ∀ j, 0 < j → j ≤ nd.fs.commitedIndex ∨ Reaches nd.fsThread j →
    j ∈ is) ?_ ?_ ?_ h x i hi (.inl hle)
  · rintro env junk j hj (h0 | h0)
    · exact absurd hj (not_lt.2 h0)
    · exact h0.elim
  · intro nd nd' is hI hf j hj hr
    rw [hf.fs] at hr
    rcases hf.fsThread with hth | ⟨-, hth⟩
    · exact hI j hj (hth ▸ hr)
    · rw [hth] at hr
      exact hI j hj (.inl (hr.resolve_right id))
  · intro s x env nd applied is _ _ hst hI j hj hr
    obtain ⟨fs, th, m, rfl, rfl, hs⟩ := Node.fsUpdateLoop_cases hst
    rw [List.mem_append]
    rcases reaches_next hs hr with rfl | h1 | h1 | ⟨p, hp, rfl⟩
    · exact absurd hj (lt_irrefl 0)
    · exact .inl (hI j hj (.inl h1))
    · exact .inl (hI j hj (.inr h1))
    · rw [Option.mem_def.1 hp]
      exact .inr (List.mem_singleton_self _)

end RaftFS
