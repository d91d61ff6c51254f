import RaftFS.Timers
import RaftFS.Proofs.Terms
import Mathlib.Algebra.BigOperators.Group.Finset.Piecewise
import Mathlib.Algebra.Order.BigOperators.Group.Finset

/-!
# Elections and the clock

With clocks the cluster does nothing it does not do without (`reach_toCluster`). A node's next
election lies between half a second and a second after it was last put off, and `CheckLeaderLoop`
sleeps past that on a leader only (`Timer.Kept`). So no election comes earlier than half a second
after one was put off (`election_spacing`), one comes within a second if the thread is in time
(`election_due`), and terms grow no faster than two a second for each node (`term_growth`).
-/

namespace RaftFS

variable {n : ℕ}

namespace Timer

variable {now delay : ℕ} {r : Fin n} {tm : Timer n} {leader : Bool}

/-- What was put off lies ahead by what may be drawn. The thread is in time for it, unless the node
is a leader, which it may sleep on. -/
structure Kept (now : ℕ) (leader : Bool) (tm : Timer n) : Prop where
  postponed : tm.postponedAt ≤ now
  early : tm.postponedAt + milliseconds lowerBound ≤ tm.nextElection
  late : tm.nextElection ≤ tm.postponedAt + milliseconds upperBound
  since : ∀ d, tm.checkThread = .start d ∨ tm.checkThread = .ready d → d ≤ now
  due : leader = false →
    ∃ d ∈ tm.checkThread.due, d ≤ tm.postponedAt + milliseconds upperBound

theorem wake_due {d : ℕ} (now : ℕ) (h : d ∈ tm.checkThread.due) :
    ∃ d' ∈ (tm.wake now).checkThread.due, d' ≤ d := by
  unfold wake
  rcases hth : tm.checkThread with since | since | _ | deadline
  · rw [hth] at h
    exact ⟨d, h, le_rfl⟩
  · rw [hth] at h
    exact ⟨d, h, le_rfl⟩
  · rw [hth] at h
    cases h
  · rw [hth] at h
    obtain rfl : deadline = d := Option.some.inj h
    exact ⟨min now deadline, rfl, min_le_right _ _⟩

theorem wake_since (h : ∀ d, tm.checkThread = .start d ∨ tm.checkThread = .ready d → d ≤ now) :
    (∀ d, (tm.wake now).checkThread = .start d ∨ (tm.wake now).checkThread = .ready d → d ≤ now) ∧
      ∃ d ∈ (tm.wake now).checkThread.due, d ≤ now := by
  unfold wake
  rcases hth : tm.checkThread with since | since | _ | deadline
  · rw [hth] at h
    exact ⟨h, since, rfl, h _ (.inl rfl)⟩
  · rw [hth] at h
    exact ⟨h, since, rfl, h _ (.inr rfl)⟩
  · refine ⟨fun d hd => ?_, now, rfl, le_rfl⟩
    rcases hd with hd | hd
    · cases hd
    · exact (CheckThread.ready.inj hd).ge
  · refine ⟨fun d hd => ?_, min now deadline, rfl, min_le_left _ _⟩
    rcases hd with hd | hd
    · cases hd
    · exact (CheckThread.ready.inj hd) ▸ min_le_left _ _

theorem Kept.postponeElection {leader' : Bool} (h : tm.Kept now leader)
    (hd : TimedCluster.Drawn delay)
    (hdue : leader' = false → ∃ d ∈ tm.checkThread.due, d ≤ now + milliseconds upperBound) :
    (tm.postponeElection now delay).Kept now leader' where
  postponed := le_rfl
  early := Nat.add_le_add_left (Nat.mul_le_mul_left _ hd.1) _
  late := Nat.add_le_add_left (Nat.mul_le_mul_left _ hd.2) _
  since := h.since
  due := hdue

theorem Kept.setRemote {due : Fin n → ℕ} (h : tm.Kept now leader) :
    { tm with remoteDue := due }.Kept now leader :=
  ⟨h.postponed, h.early, h.late, h.since, h.due⟩

theorem Kept.tick {now' : ℕ} (h : tm.Kept now leader) (hle : now ≤ now') : tm.Kept now' leader :=
  ⟨h.postponed.trans hle, h.early, h.late, fun d hd => (h.since d hd).trans hle, h.due⟩

theorem Kept.of_role {leader' : Bool} (h : tm.Kept now leader)
    (hl : leader' = false → leader = false) : tm.Kept now leader' :=
  ⟨h.postponed, h.early, h.late, h.since, fun hl' => h.due (hl hl')⟩

theorem Kept.start (tm : Timer n) (hd : TimedCluster.Drawn delay) :
    { tm.postponeElection now delay with checkThread := .ready now }.Kept now leader where
  postponed := le_rfl
  early := Nat.add_le_add_left (Nat.mul_le_mul_left _ hd.1) _
  late := Nat.add_le_add_left (Nat.mul_le_mul_left _ hd.2) _
  since := by
    rintro d (hd | hd)
    · cases hd
    · exact (CheckThread.ready.inj hd).ge
  due _ := ⟨now, rfl, Nat.le_add_right _ _⟩

theorem Kept.waitCheck (h : tm.Kept now leader) : (tm.waitCheck leader).Kept now leader where
  postponed := h.postponed
  early := h.early
  late := h.late
  since := by
    rintro d (hd | hd)
    · cases hd
    · cases hd
  due hl := by
    subst hl
    exact ⟨tm.nextElection, rfl, h.late⟩

theorem Kept.wake {leader' : Bool} (h : tm.Kept now leader)
    (hl : leader = true → leader' = false → now ≤ tm.postponedAt + milliseconds upperBound) :
    (tm.wake now).Kept now leader' where
  postponed := h.postponed
  early := h.early
  late := h.late
  since := (wake_since h.since).1
  due hl' := by
    cases hlead : leader with
    | true =>
      obtain ⟨d, hd, hle⟩ := (wake_since h.since).2
      exact ⟨d, hd, hle.trans (hl hlead hl')⟩
    | false =>
      obtain ⟨d, hd, hle⟩ := h.due hlead
      obtain ⟨d', hd', hle'⟩ := wake_due now hd
      exact ⟨d', hd', hle'.trans hle⟩

end Timer

namespace TimedCluster

open Cluster

variable {s s' : TimedCluster n} {a : TimedAction n}

section Step

theorem startLeaderElection_isLeader (x : Fin n) (nd : Node n) :
    (nd.startLeaderElection x).isLeader = false := by
  rw [Node.isLeader, (nd.startLeaderElection_office x).2.1]
  rfl

/-- What a step is. -/
inductive Step (s : TimedCluster n) : TimedAction n → TimedCluster n → Prop
  | tick {now : Fin n → ℕ} : Step s (.tick now) { s with now := now }
  | act {a : Action n} {delay : ℕ} {t : Cluster n} (ha : ∀ x, a ≠ .leaderTimeout x)
    (hd : Drawn delay) (h : s.toCluster.step a = some t) :
    Step s (.act a delay)
      { toCluster := t, now := s.now, timer := s.timerAfter a delay t, builtAt := s.builtAfter a }
  | start {x : Fin n} {delay since : ℕ} (hd : Drawn delay)
    (h : (s.timer x).checkThread = .start since) :
    Step s (.checkLoop x delay) (s.setTimer x
      { (s.timer x).postponeElection (s.now x) delay with checkThread := .ready (s.now x) })
  | elect {x : Fin n} {delay since : ℕ} (hd : Drawn delay)
    (h : (s.timer x).checkThread = .ready since) (hdue : s.Due x) :
    Step s (.checkLoop x delay) { s with
      toCluster := s.setNode x ((s.node x).startLeaderElection x)
      timer := Function.update s.timer x
        (((s.timer x).postponeElection (s.now x) delay).waitCheck false) }
  | wait {x : Fin n} {delay since : ℕ} (h : (s.timer x).checkThread = .ready since)
    (hdue : ¬ s.Due x) :
    Step s (.checkLoop x delay) (s.setTimer x ((s.timer x).waitCheck (s.node x).isLeader))
  | wake {x : Fin n} {deadline : Option ℕ} (h : (s.timer x).checkThread = .waiting deadline) :
    Step s (.checkWake x) (s.setTimer x ((s.timer x).wake (s.now x)))

theorem step_cases (h : s.step a = some s') : Step s a s' := by
  cases a with
  | tick now =>
    obtain rfl := Option.some.inj h
    exact .tick
  | act a delay =>
    have hne : ∀ x, a ≠ .leaderTimeout x := by
      rintro x rfl
      cases h
    have hstep : s.step (.act a delay) = if Drawn delay then
        (s.toCluster.step a).map fun t =>
          { toCluster := t, now := s.now, timer := s.timerAfter a delay t
            builtAt := s.builtAfter a } else none := by
      cases a with
      | leaderTimeout x => exact absurd rfl (hne x)
      | _ => rfl
    rw [hstep] at h
    split_ifs at h with hd
    obtain ⟨t, ht, rfl⟩ := Option.map_eq_some_iff.1 h
    exact .act hne hd ht
  | checkLoop x delay =>
    simp only [step] at h
    split_ifs at h with hd
    split at h
    · obtain rfl := Option.some.inj h
      exact .start hd ‹_›
    · obtain rfl := Option.some.inj h
      by_cases hdue : s.Due x
      · have hrole : ((s.node x).startLeaderElection x).isLeader = false := by
          rw [Node.isLeader, ((s.node x).startLeaderElection_office x).2.1]
          rfl
        have he : s.checkLeader x delay = { s with
            toCluster := s.setNode x ((s.node x).startLeaderElection x)
            timer := Function.update s.timer x
              (((s.timer x).postponeElection (s.now x) delay).waitCheck false) } := by
          simp only [checkLeader, if_pos hdue, electLeader, setTimer, setNode_node,
            Function.update_self, Function.update_idem, startLeaderElection_isLeader]
        rw [he]
        exact .elect hd ‹_› hdue
      · simp only [checkLeader, if_neg hdue]
        exact .wait ‹_› hdue
    · cases h
  | checkWake x =>
    simp only [step] at h
    split at h
    · obtain rfl := Option.some.inj h
      exact .wake ‹_›
    · cases h

/-- Without the clock a step is one of the cluster's or none. -/
theorem step_toCluster (h : s.step a = some s') :
    s'.toCluster = s.toCluster ∨ ∃ b, s.toCluster.step b = some s'.toCluster ∧
      ∀ x, b = .leaderTimeout x → s.Elects x a := by
  cases step_cases h with
  | tick | start | wait | wake => exact .inl rfl
  | act hb _ hst => exact .inr ⟨_, hst, fun x hx => absurd hx (hb x)⟩
  | @elect x _ since _ hth hdue =>
    refine .inr ⟨.leaderTimeout x, ?_, fun y hy => ?_⟩
    · simp only [Cluster.step, hdue.1, Bool.false_eq_true, if_false]
    · obtain rfl := Action.leaderTimeout.inj hy
      exact ⟨rfl, hdue, since, hth⟩

/-- The cluster with clocks comes to no state that the cluster does not come to. -/
theorem reach_toCluster {G : Runs.Guard (TimedCluster n) (TimedAction n)}
    (h : (timedCluster n).Reach G s) : (cluster n).Reach Runs.Sys.anyStep s.toCluster := by
  refine h.inv (I := fun s => (cluster n).Reach Runs.Sys.anyStep s.toCluster) ?_ ?_
  · rintro _ ⟨env, junk, now, delay, -, rfl⟩
    exact .init ⟨env, junk, rfl⟩
  · intro s a s' _ hI _ hst
    rcases step_toCluster hst with he | ⟨b, hb, -⟩
    · exact he ▸ hI
    · exact .step hI trivial hb

end Step

section After

variable {b : Action n} {delay : ℕ} {t : Cluster n} {y : Fin n}

theorem timerAfter_eq (s : TimedCluster n) (b : Action n) (delay : ℕ) (t : Cluster n) (y : Fin n) :
    ∃ tm due, (tm = if s.postpones b = some y then (s.timer y).postponeElection (s.now y) delay
        else s.timer y) ∧
      s.timerAfter b delay t y =
        { (if s.notifies b = some y then tm.wake (s.now y) else tm) with remoteDue := due } := by
  refine ⟨_, (s.timerAfter b delay t y).remoteDue, rfl, ?_⟩
  unfold timerAfter
  simp only
  split
  · split_ifs <;> rfl
  · split_ifs <;> rfl

theorem timerAfter_postponedAt : (s.timerAfter b delay t y).postponedAt =
    if s.postpones b = some y then s.now y else (s.timer y).postponedAt := by
  obtain ⟨tm, due, rfl, he⟩ := s.timerAfter_eq b delay t y
  rw [he]
  split_ifs <;> rfl

end After

section Roles

/-- What takes a node out of its term or its office puts its election off and wakes it, but for an
election of its own. -/
theorem postpones_of_disturbs {t : Cluster n} {b : Action n} {y : Fin n} (h : t.Disturbs y b)
    (hb : ∀ x, b ≠ .leaderTimeout x) : t.postpones b = some y ∧ t.notifies b = some y := by
  cases b with
  | leaderTimeout x => exact absurd rfl (hb x)
  | aeHandle k =>
    obtain ⟨c, hc, rfl, hd⟩ := h
    have hle : (t.node c.dst).currentTerm ≤ c.req.term := by
      rcases hd with hlt | ⟨-, heq⟩
      · exact hlt.le
      · exact heq.le
    have hdown : (t.node c.dst).StepsDown c.req := hd.imp_right fun h => ⟨h.1, h.2.le⟩
    rw [Option.mem_def] at hc
    simp only [postpones, notifies, hc, Option.bind_eq_bind, Option.bind_some, if_pos hle,
      if_pos hdown, and_self]
  | aeReturn k =>
    obtain ⟨c, hc, rfl, resp, hr, hlt⟩ := h
    rw [Option.mem_def] at hc hr
    simp only [postpones, notifies, hc, hr, Option.bind_eq_bind, Option.bind_some, if_pos hlt,
      and_self]
  | rvHandle k =>
    obtain ⟨c, hc, rfl, hlt⟩ := h
    have hp : (t.node c.dst).PostponesFor c.req := .inl hlt
    rw [Option.mem_def] at hc
    simp only [postpones, notifies, hc, Option.bind_eq_bind, Option.bind_some, if_pos hlt,
      if_pos hp, and_self]
  | _ => exact h.elim

theorem postpones_of_stepDown {t t' : Cluster n} {b : Action n} {y : Fin n}
    (h : t.step b = some t') (hb : ∀ x, b ≠ .leaderTimeout x)
    (hl : (t.node y).isLeader = true) (hl' : (t'.node y).isLeader = false) :
    t.postpones b = some y ∧ t.notifies b = some y := by
  rw [Node.isLeader_eq_true] at hl
  have hne : (t'.node y).currentRole ≠ .kLeader := by simpa [Node.isLeader] using hl'
  cases step_office h y with
  | keep _ hr | learn _ _ _ _ _ hr => exact absurd (hr.trans hl) hne
  | win _ _ hr => exact absurd hr hne
  | stand hd | stepDown hd | defer _ hd => exact postpones_of_disturbs hd hb

end Roles

section Kept

/-- The clocks do not go back. -/
def Forward (s : TimedCluster n) : TimedAction n → Prop
  | .tick now => ∀ x, s.now x ≤ now x
  | _ => True

instance (s : TimedCluster n) (a : TimedAction n) : Decidable (Forward s a) :=
  match a with
  | .tick now => inferInstanceAs (Decidable (∀ x, s.now x ≤ now x))
  | .act _ _ | .checkLoop _ _ | .checkWake _ => .isTrue trivial

/-- Every timer is kept. -/
def Kept (s : TimedCluster n) : Prop := ∀ y, (s.timer y).Kept (s.now y) (s.node y).isLeader

theorem Kept.update (h : s.Kept) {x : Fin n} {tm : Timer n}
    (hx : tm.Kept (s.now x) (s.node x).isLeader) : (s.setTimer x tm).Kept := by
  intro y
  change (Function.update s.timer x tm y).Kept _ _
  rw [Function.update_apply]
  split_ifs with hy
  · exact hy ▸ hx
  · exact h y

/-- An action of the cluster keeps the timers. -/
theorem Kept.act (h : s.Kept) {b : Action n} {delay : ℕ} {t : Cluster n}
    (hb : ∀ x, b ≠ .leaderTimeout x) (hd : Drawn delay) (hst : s.toCluster.step b = some t)
    (y : Fin n) : (s.timerAfter b delay t y).Kept (s.now y) (t.node y).isLeader := by
  have hdown := postpones_of_stepDown (y := y) hst hb
  obtain ⟨tm, due, htm, he⟩ := s.timerAfter_eq b delay t y
  have hput : tm.Kept (s.now y) (s.node y).isLeader := by
    rw [htm]
    split_ifs
    · refine (h y).postponeElection hd fun hl => ?_
      obtain ⟨d, hd, hle⟩ := (h y).due hl
      exact ⟨d, hd, hle.trans (Nat.add_le_add_right (h y).postponed _)⟩
    · exact h y
  rw [he]
  refine Timer.Kept.setRemote ?_
  split_ifs with hn
  · refine hput.wake fun hl hl' => ?_
    rw [htm, if_pos (hdown hl hl').1]
    exact Nat.le_add_right _ _
  · refine hput.of_role fun hl' => ?_
    by_contra hl
    exact hn (hdown (by simpa using hl) hl').2

theorem Kept.step (h : s.Kept) (hg : Forward s a) (hst : s.step a = some s') : s'.Kept := by
  cases step_cases hst with
  | tick => exact fun y => (h y).tick (hg y)
  | act hb hd hb' => exact h.act hb hd hb'
  | start hd => exact h.update (.start _ hd)
  | wait => exact h.update (h _).waitCheck
  | wake => exact h.update ((h _).wake fun hl hl' => by rw [hl] at hl'; cases hl')
  | @elect x delay since hd hth =>
    have hx : (((s.timer x).postponeElection (s.now x) delay).waitCheck false).Kept (s.now x)
        false := by
      refine Timer.Kept.waitCheck ((h x).postponeElection hd fun _ => ⟨since, ?_, ?_⟩)
      · rw [hth]
        rfl
      · exact ((h x).since since (.inr hth)).trans (Nat.le_add_right _ _)
    intro y
    by_cases hy : y = x
    · subst hy
      simpa only [setNode_node, Function.update_self, startLeaderElection_isLeader] using hx
    · simpa only [setNode_node, Function.update_of_ne hy] using h y

theorem reach_kept {G : Runs.Guard (TimedCluster n) (TimedAction n)}
    (hG : ∀ s a, G s a → Forward s a) (h : (timedCluster n).Reach G s) : s.Kept := by
  refine h.inv (I := Kept) ?_ fun s a s' _ hI hg hst => hI.step (hG s a hg) hst
  rintro _ ⟨env, junk, now, delay, hd, rfl⟩ y
  refine ⟨le_rfl, ?_, ?_, ?_, fun _ => ⟨now y, rfl, Nat.le_add_right _ _⟩⟩
  · exact Nat.add_le_add_left (Nat.mul_le_mul_left _ (hd y).1) _
  · exact Nat.add_le_add_left (Nat.mul_le_mul_left _ (hd y).2) _
  · rintro d (hd | hd)
    · exact (CheckThread.start.inj hd).ge
    · cases hd

end Kept

section Elections

variable {x : Fin n}

theorem postponedAt_of_postpones (hp : s.Postpones x a) (hst : s.step a = some s') :
    (s'.timer x).postponedAt = s.now x := by
  cases step_cases hst with
  | tick | wake => exact hp.elim
  | act => exact timerAfter_postponedAt.trans (if_pos hp)
  | start =>
    obtain ⟨rfl, -⟩ := hp
    simp only [setTimer, Function.update_self, Timer.postponeElection]
  | elect =>
    obtain ⟨rfl, -⟩ := hp
    simp only [Function.update_self, Timer.postponeElection, Timer.waitCheck]
  | wait h hdue =>
    obtain ⟨rfl, hp⟩ := hp
    rw [h] at hp
    exact absurd hp hdue

theorem postponedAt_of_not_postpones (hp : ¬ s.Postpones x a) (hst : s.step a = some s') :
    (s'.timer x).postponedAt = (s.timer x).postponedAt := by
  cases step_cases hst with
  | tick => rfl
  | act => exact timerAfter_postponedAt.trans (if_neg hp)
  | @start y _ _ _ h =>
    have hy : x ≠ y := by
      rintro rfl
      exact hp ⟨rfl, by rw [h]; trivial⟩
    simp only [setTimer, Function.update_of_ne hy]
  | @elect y _ _ _ h hdue =>
    have hy : x ≠ y := by
      rintro rfl
      exact hp ⟨rfl, by rw [h]; exact hdue⟩
    simp only [Function.update_of_ne hy]
  | @wait y | @wake y =>
    by_cases hy : x = y
    · subst hy
      simp only [setTimer, Function.update_self, Timer.waitCheck, Timer.wake]
    · simp only [setTimer, Function.update_of_ne hy]

theorem step_postponedAt (hk : s.Kept) (hst : s.step a = some s') (x : Fin n) :
    (s.timer x).postponedAt ≤ (s'.timer x).postponedAt := by
  by_cases hp : s.Postpones x a
  · rw [postponedAt_of_postpones hp hst]
    exact (hk x).postponed
  · rw [postponedAt_of_not_postpones hp hst]

theorem later_postponedAt {G : Runs.Guard (TimedCluster n) (TimedAction n)}
    (hG : ∀ s a, G s a → Forward s a) (h : (timedCluster n).Reach G s)
    (hl : (timedCluster n).Later G s s') (x : Fin n) :
    (s.timer x).postponedAt ≤ (s'.timer x).postponedAt := by
  refine hl.rel (R := fun s s' => (s.timer x).postponedAt ≤ (s'.timer x).postponedAt)
    (fun _ => le_rfl) (fun _ _ _ => le_trans) ?_ h
  exact fun s a s' hs _ hst => step_postponedAt (reach_kept hG hs) hst x

theorem Elects.spaced (hk : s.Kept) (he : s.Elects x a) :
    (s.timer x).postponedAt + milliseconds Timer.lowerBound ≤ s.now x := by
  cases a with
  | checkLoop y => exact (hk x).early.trans he.2.1.2
  | _ => exact he.elim

/-- In every run in which no clock goes back, a node calls an election no sooner than half a second
by its clock after it has last started one, accepted a request of a leader, given a vote in its
term, or stepped down. -/
theorem election_spacing {s₁ s₂ : TimedCluster n} {a₁ : TimedAction n}
    (h : (timedCluster n).Reach Forward s₁) (hp : s₁.Postpones x a₁) (hst : s₁.step a₁ = some s₂)
    (hl : (timedCluster n).Later Forward s₂ s) (he : s.Elects x a) :
    s₁.now x + milliseconds 500 ≤ s.now x := by
  have hg : Forward s₁ a₁ := by
    cases a₁ with
    | tick => exact hp.elim
    | _ => trivial
  have h₂ := h.step hg hst
  calc s₁.now x + milliseconds 500
    _ = (s₂.timer x).postponedAt + milliseconds Timer.lowerBound := by
      rw [postponedAt_of_postpones hp hst, Timer.lowerBound]
    _ ≤ (s.timer x).postponedAt + milliseconds Timer.lowerBound :=
      Nat.add_le_add_right (later_postponedAt (fun _ _ hg => hg) h₂ hl x) _
    _ ≤ s.now x := he.spaced (reach_kept (fun _ _ hg => hg) (h₂.later hl))

/-- A cluster of three nodes just built, with clocks. -/
def timedStart3 : TimedCluster 3 :=
  .init (fun _ _ => ⟨0, 0⟩) (fun _ _ => 0) (fun _ => 0) fun _ => 500

theorem init_timedStart3 : (timedCluster 3).init timedStart3 :=
  ⟨_, _, _, _, fun _ => by decide, rfl⟩

/-- The threads of `x` and `y` start, and that of `x` calls an election after half a second. -/
def standFirst (x y : Fin 3) : List (TimedAction 3) :=
  [.checkLoop x 500, .checkLoop y 500, .checkLoop x 500, .tick fun _ => milliseconds 500,
    .checkWake x, .checkLoop x 500]

/-- Node `1` gives node `0` its vote, and calls an election of its own half a second later. -/
theorem election_spacing_voted :
    ∃ s₁ s₂ s, (timedCluster 3).Reach Forward s₁ ∧ s₁.step (.act (.rvHandle 0) 500) = some s₂ ∧
      (timedCluster 3).Later Forward s₂ s ∧ s.Elects 1 (.checkLoop 1 500) ∧
      s₁.now 1 + milliseconds 500 ≤ s.now 1 := by
  let s₁ := (timedCluster 3).run Forward timedStart3
    (standFirst 0 1 ++ [.act (.remoteWake 0 1) 500, .act (.rvSend 0) 500])
  let s₂ := (timedCluster 3).run Forward s₁ [.act (.rvHandle 0) 500]
  let s := (timedCluster 3).run Forward s₂ [.tick fun _ => milliseconds 1000]
  have h₁ : (timedCluster 3).Reach Forward s₁ :=
    Runs.Sys.reach_run (.init init_timedStart3) (by decide +kernel)
  have hl : (timedCluster 3).Later Forward s₂ s := Runs.Sys.later_run (by decide +kernel)
  have hst : s₁.step (.act (.rvHandle 0) 500) = some s₂ := rfl
  have he : s.Elects 1 (.checkLoop 1 500) := ⟨rfl, by decide +kernel, 0, rfl⟩
  have hp : s₁.Postpones 1 (.act (.rvHandle 0) 500) := by
    change s₁.postpones (.rvHandle 0) = some 1
    decide +kernel
  exact ⟨s₁, s₂, s, h₁, hst, hl, he, election_spacing h₁ hp hst hl he⟩

end Elections

section InTime

variable {ε : ℕ}

/-- The clocks do not go back, and none goes more than `ε` past a time from which the node's
`CheckLeaderLoop` can go on and has not. -/
def Prompt (ε : ℕ) (s : TimedCluster n) : TimedAction n → Prop
  | .tick now => ∀ x, s.now x ≤ now x ∧ ∀ d ∈ (s.timer x).checkThread.due, now x ≤ d + ε
  | _ => True

instance (s : TimedCluster n) (a : TimedAction n) : Decidable (Prompt ε s a) :=
  match a with
  | .tick now => inferInstanceAs (Decidable (∀ x, s.now x ≤ now x ∧
      ∀ d ∈ (s.timer x).checkThread.due, now x ≤ d + ε))
  | .act _ _ | .checkLoop _ _ | .checkWake _ => .isTrue trivial

theorem Prompt.forward (h : Prompt ε s a) : Forward s a := by
  cases a with
  | tick => exact fun x => (h x).1
  | _ => trivial

/-- `CheckLeaderLoop` of each node is no later than `ε`. -/
def InTime (ε : ℕ) (s : TimedCluster n) : Prop :=
  ∀ x, ∀ d ∈ (s.timer x).checkThread.due, s.now x ≤ d + ε

theorem InTime.setTimer (h : InTime ε s) {x : Fin n} {tm : Timer n}
    (hx : ∀ d ∈ tm.checkThread.due, s.now x ≤ d + ε) : InTime ε (s.setTimer x tm) := by
  intro y
  change ∀ d ∈ (Function.update s.timer x tm y).checkThread.due, _
  rw [Function.update_apply]
  split_ifs with hy
  · exact hy ▸ hx
  · exact h y

theorem InTime.wake (h : InTime ε s) (x : Fin n) :
    ∀ d ∈ ((s.timer x).wake (s.now x)).checkThread.due, s.now x ≤ d + ε := by
  have hx := h x
  unfold Timer.wake
  rcases hth : (s.timer x).checkThread with since | since | _ | deadline
  · rwa [hth] at hx
  · rwa [hth] at hx
  · intro d hd
    obtain rfl : s.now x = d := Option.some.inj hd
    exact Nat.le_add_right _ _
  · intro d hd
    obtain rfl : min (s.now x) deadline = d := Option.some.inj hd
    rw [hth] at hx
    have hle : s.now x ≤ deadline + ε := hx deadline rfl
    rcases min_choice (s.now x) deadline with he | he
    · rw [he]
      exact Nat.le_add_right _ _
    · rwa [he]

theorem InTime.step (h : InTime ε s) (hg : Prompt ε s a) (hst : s.step a = some s') :
    InTime ε s' := by
  cases step_cases hst with
  | tick => exact fun x => (hg x).2
  | @act b delay t =>
    intro y
    obtain ⟨tm, due, htm, he⟩ := s.timerAfter_eq b delay t y
    have hth : tm.checkThread = (s.timer y).checkThread := by
      rw [htm]
      split_ifs <;> rfl
    change ∀ d ∈ (s.timerAfter b delay t y).checkThread.due, s.now y ≤ d + ε
    rw [he]
    split_ifs
    · have hw : (tm.wake (s.now y)).checkThread = ((s.timer y).wake (s.now y)).checkThread := by
        simp only [Timer.wake, hth]
      change ∀ d ∈ (tm.wake (s.now y)).checkThread.due, _
      rw [hw]
      exact h.wake y
    · change ∀ d ∈ tm.checkThread.due, _
      rw [hth]
      exact h y
  | @start x =>
    refine h.setTimer fun d hd => ?_
    obtain rfl : s.now x = d := Option.some.inj hd
    exact Nat.le_add_right _ _
  | wake => exact h.setTimer (h.wake _)
  | @wait x _ _ _ hdue =>
    refine h.setTimer fun d hd => ?_
    cases hl : (s.node x).isLeader with
    | true =>
      rw [hl] at hd
      cases hd
    | false =>
      rw [hl] at hd
      obtain rfl : (s.timer x).nextElection = d := Option.some.inj hd
      have hlt : s.now x < (s.timer x).nextElection := by
        by_contra hle
        exact hdue ⟨hl, not_lt.1 hle⟩
      exact hlt.le.trans (Nat.le_add_right _ _)
  | @elect x delay =>
    have hx : InTime ε (s.setTimer x
        (((s.timer x).postponeElection (s.now x) delay).waitCheck false)) := by
      refine h.setTimer fun d hd => ?_
      obtain rfl : s.now x + milliseconds delay = d := Option.some.inj hd
      exact (Nat.le_add_right _ _).trans (Nat.le_add_right _ _)
    exact hx

theorem reach_inTime (h : (timedCluster n).Reach (Prompt ε) s) : InTime ε s := by
  refine h.inv (I := InTime ε) ?_ fun s a s' _ hI hg hst => hI.step hg hst
  rintro _ ⟨env, junk, now, delay, -, rfl⟩ x d hd
  obtain rfl : now x = d := Option.some.inj hd
  exact Nat.le_add_right _ _

theorem later_postponed {G : Runs.Guard (TimedCluster n) (TimedAction n)} {s₀ : TimedCluster n}
    (h₀ : (timedCluster n).init s₀) (h : (timedCluster n).Later G s₀ s) (x : Fin n) :
    (s.timer x).postponedAt = s₀.now x ∨ ∃ s₁ a₁ s₂, (timedCluster n).Later G s₀ s₁ ∧
      s₁.Postpones x a₁ ∧ s₁.step a₁ = some s₂ ∧ (timedCluster n).Later G s₂ s ∧
      (s.timer x).postponedAt = s₁.now x := by
  have hlast : ∀ (t : TimedCluster n) a t', t.step a = some t' →
      (t'.timer x).postponedAt = (s.timer x).postponedAt →
        (t.timer x).postponedAt = (s.timer x).postponedAt ∨
          t.Postpones x a ∧ (s.timer x).postponedAt = t.now x := by
    intro t a t' hst he
    by_cases hp : t.Postpones x a
    · exact .inr ⟨hp, he.symm.trans (postponedAt_of_postpones hp hst)⟩
    · exact .inl ((postponedAt_of_not_postpones hp hst).symm.trans he)
  rcases h.exists_step (P := fun t => (t.timer x).postponedAt = (s.timer x).postponedAt) hlast rfl
    with he | ⟨s₁, a₁, s₂, h₁, ⟨hp, he⟩, hst, h₂⟩
  · obtain ⟨env, junk, now, delay, -, rfl⟩ := h₀
    exact .inl he.symm
  · exact .inr ⟨s₁, a₁, s₂, h₁, hp, hst, h₂, he⟩

/-- In every run in which no clock goes back and no `CheckLeaderLoop` is later than `ε`, each node
that is not a leader has, in the last second by its clock and `ε` more, been started, called an
election, accepted a request of a leader, given a vote in its term, or stepped down. -/
theorem election_due {s₀ : TimedCluster n} (h₀ : (timedCluster n).init s₀)
    (h : (timedCluster n).Later (Prompt ε) s₀ s) (x : Fin n) (hx : (s.node x).isLeader = false) :
    s.now x ≤ s₀.now x + milliseconds 1000 + ε ∨
      ∃ s₁ a₁ s₂, (timedCluster n).Later (Prompt ε) s₀ s₁ ∧ s₁.Postpones x a₁ ∧
        s₁.step a₁ = some s₂ ∧ (timedCluster n).Later (Prompt ε) s₂ s ∧
        s.now x ≤ s₁.now x + milliseconds 1000 + ε := by
  have hr : (timedCluster n).Reach (Prompt ε) s := (Runs.Sys.Reach.init h₀).later h
  obtain ⟨d, hd, hle⟩ := (reach_kept (fun _ _ hg => hg.forward) hr x).due hx
  have hnow : s.now x ≤ (s.timer x).postponedAt + milliseconds 1000 + ε :=
    calc s.now x
      _ ≤ d + ε := reach_inTime hr x d hd
      _ ≤ (s.timer x).postponedAt + milliseconds Timer.upperBound + ε := Nat.add_le_add_right hle _
      _ = (s.timer x).postponedAt + milliseconds 1000 + ε := by rw [Timer.upperBound]
  rcases later_postponed h₀ h x with he | ⟨s₁, a₁, s₂, h₁, hp₁, hst₁, h₂, he⟩
  · exact .inl (he ▸ hnow)
  · exact .inr ⟨s₁, a₁, s₂, h₁, hp₁, hst₁, h₂, he ▸ hnow⟩

/-- Node `0` calls an election after half a second, and another half a second later it is in time.
-/
theorem election_due_called :
    ∃ s₀ s, (timedCluster 3).init s₀ ∧ (timedCluster 3).Later (Prompt (milliseconds 500)) s₀ s ∧
      (s.node 0).isLeader = false ∧ s.now 0 = milliseconds 1000 ∧
      (s.now 0 ≤ s₀.now 0 + milliseconds 1000 + milliseconds 500 ∨
        ∃ s₁ a₁ s₂, (timedCluster 3).Later (Prompt (milliseconds 500)) s₀ s₁ ∧
          s₁.Postpones 0 a₁ ∧ s₁.step a₁ = some s₂ ∧
          (timedCluster 3).Later (Prompt (milliseconds 500)) s₂ s ∧
          s.now 0 ≤ s₁.now 0 + milliseconds 1000 + milliseconds 500) := by
  let s := (timedCluster 3).run (Prompt (milliseconds 500)) timedStart3
    (standFirst 0 1 ++ [.checkLoop 1 500, .checkLoop 2 500, .tick fun _ => milliseconds 1000])
  have hl : (timedCluster 3).Later (Prompt (milliseconds 500)) timedStart3 s :=
    Runs.Sys.later_run (by decide +kernel)
  have hx : (s.node 0).isLeader = false := by decide +kernel
  exact ⟨timedStart3, s, init_timedStart3, hl, hx, by decide +kernel,
    election_due init_timedStart3 hl 0 hx⟩

end InTime

section Growth

/-- The terms are no more than the elections there have been, of which each node has had no more
than there were half seconds until it last put one off. -/
def Counted (s₀ s : TimedCluster n) : Prop :=
  ∃ k : Fin n → ℕ, (∀ y, (s.node y).currentTerm ≤ ∑ x, k x) ∧
    ∀ x, s₀.now x + milliseconds 500 * k x ≤ (s.timer x).postponedAt

theorem Counted.step {s₀ : TimedCluster n} (h : Counted s₀ s)
    (hr : (timedCluster n).Reach Forward s) (hst : s.step a = some s') : Counted s₀ s' := by
  obtain ⟨k, hterm, hk⟩ := h
  have hkept := reach_kept (fun _ _ hg => hg) hr
  have hk' : ∀ x, s₀.now x + milliseconds 500 * k x ≤ (s'.timer x).postponedAt :=
    fun x => (hk x).trans (step_postponedAt hkept hst x)
  cases step_cases hst with
  | tick | start | wait | wake => exact ⟨k, hterm, hk'⟩
  | act hb _ hb' => exact ⟨k, step_term_le (reach_toCluster hr) hterm hb' hb, hk'⟩
  | @elect x delay since hd hth hdue =>
    have hsum : ∑ y, Function.update k x (k x + 1) y = ∑ y, k y + 1 := by
      rw [Finset.sum_update_of_mem (Finset.mem_univ x), ← Finset.add_sum_erase _ _
        (Finset.mem_univ x), Finset.sdiff_singleton_eq_erase]
      omega
    refine ⟨Function.update k x (k x + 1), fun y => ?_, fun y => ?_⟩
    · rw [hsum]
      by_cases hy : y = x
      · subst hy
        simp only [setNode_node, Function.update_self, (Node.startLeaderElection_office _ _).1]
        exact Nat.add_le_add_right (hterm y) 1
      · simp only [setNode_node, Function.update_of_ne hy]
        exact (hterm y).trans (Nat.le_succ _)
    · by_cases hy : y = x
      · subst hy
        have hsp : (s.timer y).postponedAt + milliseconds Timer.lowerBound ≤ s.now y :=
          Elects.spaced (a := .checkLoop y delay) hkept ⟨rfl, hdue, since, hth⟩
        simp only [Function.update_self, Timer.postponeElection, Timer.waitCheck]
        calc s₀.now y + milliseconds 500 * (k y + 1)
          _ = s₀.now y + milliseconds 500 * k y + milliseconds 500 := by
            rw [Nat.mul_succ, Nat.add_assoc]
          _ ≤ (s.timer y).postponedAt + milliseconds 500 := Nat.add_le_add_right (hk y) _
          _ ≤ s.now y := hsp
      · simp only [Function.update_of_ne hy]
        exact hk y

/-- A term that is seen after a step and not before is one that the step has a node stand in. -/
theorem seen_step (hst : s.step a = some s') {T : ℕ} (hT : s'.Seen T) :
    s.Seen T ∨ ∃ x, s.Elects x a ∧ T = (s.node x).currentTerm + 1 := by
  rcases step_toCluster hst with he | ⟨b, hb, helects⟩
  · exact .inl (he ▸ hT)
  · rcases Cluster.step_seen hb hT with hT | ⟨x, hx, ht⟩
    · exact .inl hT
    · exact .inr ⟨x, helects x hx, ht⟩

/-- Every term seen in a run is that of the beginning or of an election in the run. -/
theorem later_seen {G : Runs.Guard (TimedCluster n) (TimedAction n)} {s₀ : TimedCluster n}
    (h₀ : (timedCluster n).init s₀) (h : (timedCluster n).Later G s₀ s) {T : ℕ} (hT : s.Seen T) :
    T = 0 ∨ ∃ s₁ a₁ s₂ x, (timedCluster n).Later G s₀ s₁ ∧ s₁.Elects x a₁ ∧
      s₁.step a₁ = some s₂ ∧ (timedCluster n).Later G s₂ s ∧ T = (s₁.node x).currentTerm + 1 := by
  rcases h.exists_step (P := fun t => t.Seen T) (fun _ _ _ hst hT => seen_step hst hT) hT
    with hT | ⟨s₁, a₁, s₂, h₁, ⟨x, hx, ht⟩, hst, h₂⟩
  · obtain ⟨env, junk, now, delay, -, rfl⟩ := h₀
    rcases hT with ⟨x, rfl⟩ | ⟨c, hc, -⟩ | ⟨c, hc, -⟩
    · exact .inl rfl
    · cases hc
    · cases hc
  · exact .inr ⟨s₁, a₁, s₂, x, h₁, hx, hst, h₂, ht⟩

/-- In every run in which no clock goes back, each term that a node is in or a message carries, but
for the first, is one that a node has called an election for, and none is more than the half seconds
that have gone by on the clocks of all nodes. -/
theorem term_growth {s₀ : TimedCluster n} (h₀ : (timedCluster n).init s₀)
    (h : (timedCluster n).Later Forward s₀ s) {T : ℕ} (hT : s.Seen T) :
    (T = 0 ∨ ∃ s₁ a₁ s₂ x, (timedCluster n).Later Forward s₀ s₁ ∧ s₁.Elects x a₁ ∧
        s₁.step a₁ = some s₂ ∧ (timedCluster n).Later Forward s₂ s ∧
        T = (s₁.node x).currentTerm + 1) ∧
      T ≤ ∑ x, (s.now x - s₀.now x) / milliseconds 500 := by
  refine ⟨later_seen h₀ h hT, ?_⟩
  have hI : (timedCluster n).Reach Forward s ∧ Counted s₀ s := by
    refine h.inv (I := fun s => (timedCluster n).Reach Forward s ∧ Counted s₀ s) ?_ ?_
    · refine ⟨.init h₀, fun _ => 0, ?_, ?_⟩
      · obtain ⟨env, junk, now, delay, -, rfl⟩ := h₀
        exact fun _ => Nat.zero_le _
      · obtain ⟨env, junk, now, delay, -, rfl⟩ := h₀
        exact fun _ => le_rfl
    · exact fun t a t' hI hg hst => ⟨hI.1.step hg hst, hI.2.step hI.1 hst⟩
  obtain ⟨hr, k, hterm, hk⟩ := hI
  obtain ⟨y, hy⟩ : ∃ y, T ≤ (s.node y).currentTerm := by
    rcases hT with ⟨y, rfl⟩ | hT
    · exact ⟨y, le_rfl⟩
    · exact Cluster.reach_carries (reach_toCluster hr) T hT
  refine (hy.trans (hterm y)).trans (Finset.sum_le_sum fun x _ => ?_)
  have hle : s₀.now x + milliseconds 500 * k x ≤ s.now x :=
    (hk x).trans (reach_kept (fun _ _ hg => hg) hr x).postponed
  rw [Nat.le_div_iff_mul_le (by decide), Nat.mul_comm]
  exact Nat.le_sub_of_add_le' hle

/-- Node `0` stands in the first term after half a second, and its request carries it. -/
theorem term_growth_called :
    ∃ s₀ s, (timedCluster 3).init s₀ ∧ (timedCluster 3).Later Forward s₀ s ∧
      (∃ c ∈ s.rvCalls, c.req.term = 1) ∧
      (∃ s₁ a₁ s₂ x, (timedCluster 3).Later Forward s₀ s₁ ∧ s₁.Elects x a₁ ∧
        s₁.step a₁ = some s₂ ∧ (timedCluster 3).Later Forward s₂ s ∧
        (s₁.node x).currentTerm = 0) ∧
      1 ≤ ∑ x, (s.now x - s₀.now x) / milliseconds 500 := by
  let s := (timedCluster 3).run Forward timedStart3
    (standFirst 0 1 ++ [.act (.remoteWake 0 1) 500])
  have hl : (timedCluster 3).Later Forward timedStart3 s := Runs.Sys.later_run (by decide +kernel)
  obtain ⟨c, hc, ht⟩ : ∃ c ∈ s.rvCalls, c.req.term = 1 := by decide +kernel
  obtain ⟨h0 | ⟨s₁, a₁, s₂, x, h₁, hx, hst, h₂, hterm⟩, hle⟩ :=
    term_growth (T := 1) init_timedStart3 hl (.inr (.inr ⟨c, hc, .inl ht⟩))
  · cases h0
  · exact ⟨timedStart3, s, init_timedStart3, hl, ⟨c, hc, ht⟩,
      ⟨s₁, a₁, s₂, x, h₁, hx, hst, h₂, by omega⟩, hle⟩

end Growth

end TimedCluster

end RaftFS
