import RaftFS.Proofs.Loops
import RaftFS.Proofs.Timers

/-!
# A leader in time stays

A `RemoteHostLoop` of a leader sends a request, waits a quarter of a second when the response is
there, and sends the next. Where a call takes no longer than `δ` and a loop is no later than `ε`,
the remote puts its election off at least every quarter of a second, twice `δ` and `ε`
(`Hears.recent`). If that is less than half a second, no one ever calls an election
(`leader_stable`).
-/

namespace RaftFS

variable {n : ℕ}

namespace Cluster

variable {s s' : Cluster n} {a : Action n} {T : ℕ}

/-- Where all nodes are in one term and none is a candidate, they stay so until an election. -/
theorem step_settled {G : Runs.Guard (Cluster n) (Action n)} (hs : (cluster n).Reach G s)
    (hT : ∀ y, (s.node y).currentTerm = T) (hc : ∀ y, (s.node y).currentRole ≠ .kCandidate)
    (h : s.step a = some s') (ha : ∀ x, a ≠ .leaderTimeout x) (y : Fin n) :
    (s'.node y).currentTerm = T ∧ (s'.node y).currentRole = (s.node y).currentRole := by
  have hle := step_term_le hs (fun z => (hT z).le) h ha y
  have hy := hT y
  cases step_office h y with
  | keep ht hr | learn _ _ _ _ ht hr => exact ⟨ht.trans hy, hr⟩
  | stand _ ht => omega
  | win hcand => exact absurd hcand (hc y)
  | stepDown _ ht => omega
  | defer _ _ hd ht =>
    rcases hd with hlt | ⟨hcand, -⟩
    · omega
    · exact absurd hcand (hc y)

theorem step_call (h : s.step a = some s') {k : ℕ} {c : AppendEntriesCall n}
    (hc : s.aeCalls[k]? = some c) : ∃ ph, s'.aeCalls[k]? = some { c with phase := ph } ∧
      (ph.resp? = c.phase.resp? ∨ a = .aeHandle k ∧ ph.resp? ≠ none) := by
  obtain ⟨ph, hk⟩ := (step_keeps h).aeCalls k c hc
  have hstep := step_aeCalls h hk
  generalize { c with phase := ph } = c' at hk hstep
  cases hstep with
  | same hc₀ hp =>
    obtain rfl := Option.some.inj (hc₀.symm.trans hc)
    exact ⟨_, hk, .inl hp⟩
  | handled hc₀ ha =>
    obtain rfl := Option.some.inj (hc₀.symm.trans hc)
    exact ⟨_, hk, .inr ⟨ha, by simp [Phase.resp?]⟩⟩
  | made _ hlen =>
    obtain ⟨hlt, -⟩ := List.getElem?_eq_some_iff.1 hc
    omega

end Cluster

namespace TimedCluster

open Cluster

variable {s s' : TimedCluster n} {a : TimedAction n} {x y : Fin n} {T δ ε : ℕ}

section Built

variable {b : Action n} {k : ℕ}

theorem builtAfter_of_lt (hk : k < s.aeCalls.length) : s.builtAfter b k = s.builtAt k := by
  unfold builtAfter
  rcases s.remoteLoop b with _ | ⟨z, r⟩
  · rfl
  · exact Function.update_of_ne hk.ne _ _

theorem builtAfter_length (h : s.remoteLoop b = some (x, y)) :
    s.builtAfter b s.aeCalls.length = s.now x := by
  simp only [builtAfter, h, Function.update_self]

end Built

theorem timerAfter_remoteDue {b : Action n} {delay : ℕ} {t : Cluster n} :
    (s.timerAfter b delay t x).remoteDue y =
      if s.remoteLoop b = some (x, y) ∧ (t.node x).remoteThread y = .waiting then
        s.now x + milliseconds 250
      else (s.timer x).remoteDue y := by
  rcases hl : s.remoteLoop b with _ | ⟨z, r⟩
  · simp only [timerAfter, hl, reduceCtorEq, false_and, if_false]
    split_ifs <;> rfl
  · by_cases hz : z = x ∧ (t.node z).remoteThread r = RemoteThread.waiting
    · obtain ⟨rfl, hth⟩ := hz
      by_cases hr : r = y
      · subst hr
        simp [timerAfter, hl, hth, Timer.waitRemote]
      · simp only [timerAfter, hl, hth, Option.some.injEq, Prod.mk.injEq, hr, true_and, and_true,
          false_and, if_true, if_false, Timer.waitRemote, Function.update_of_ne (Ne.symm hr)]
        split_ifs <;> rfl
    · have hno : ¬ (some (z, r) = some (x, y) ∧ (t.node x).remoteThread y = .waiting) := by
        rintro ⟨heq, hth⟩
        obtain ⟨rfl, rfl⟩ := Prod.mk.inj (Option.some.inj heq)
        exact hz ⟨rfl, hth⟩
      simp only [timerAfter, hl, if_neg hz, if_neg hno]
      split_ifs <;> rfl

/-- The follower `y` has heard from the leader `x` lately, or will before long. What is measured is
the time since `y` last put its election off, against the time until the loop of `x` for `y` is due
or since it has built its call. -/
inductive Hears (x : Fin n) (T δ ε : ℕ) (s : TimedCluster n) (y : Fin n) : Prop
  | waiting (h : (s.node x).remoteThread y = .waiting)
    (hage : (s.timer x).remoteDue y + s.now y ≤
      s.now x + (s.timer y).postponedAt + milliseconds 250 + δ)
    (hdue : s.now x ≤ (s.timer x).remoteDue y + ε)
  | called {k : ℕ} {c : AppendEntriesCall n} (h : (s.node x).remoteThread y = .appendEntries k)
    (hc : s.aeCalls[k]? = some c) (hdst : c.dst = y) (hreq : c.req.term = T)
    (hp : c.phase.resp? = none) (hb : s.builtAt k ≤ s.now x)
    (hage : s.builtAt k + s.now y ≤
      s.now x + (s.timer y).postponedAt + milliseconds 250 + δ + ε)
    (hdue : s.now x ≤ s.builtAt k + δ)
  | answered {k : ℕ} {c : AppendEntriesCall n} (h : (s.node x).remoteThread y = .appendEntries k)
    (hc : s.aeCalls[k]? = some c) (hp : c.phase.resp? ≠ none)
    (hage : s.builtAt k + s.now y ≤ s.now x + (s.timer y).postponedAt)
    (hdue : s.now x ≤ s.builtAt k + δ)

/-- All nodes are in the term, `x` leads it and the others follow and hear from it. -/
structure Settled (x : Fin n) (T δ ε : ℕ) (s : TimedCluster n) : Prop where
  term : ∀ y, (s.node y).currentTerm = T
  leads : (s.node x).currentRole = .kLeader
  follow : ∀ y, y ≠ x → (s.node y).currentRole = .kFollower
  hears : ∀ y, y ≠ x → Hears x T δ ε s y

/-- The loop of `x` for `y` is in time when the clock of `x` reads `now`. -/
def LoopInTime (x : Fin n) (δ ε : ℕ) (s : TimedCluster n) (now : ℕ) (y : Fin n) : Prop :=
  match (s.node x).remoteThread y with
  | .waiting => now ≤ (s.timer x).remoteDue y + ε
  | .appendEntries k => now ≤ s.builtAt k + δ
  | .requestVote _ => True

instance (now : ℕ) : Decidable (s.LoopInTime x δ ε now y) := by
  unfold LoopInTime
  cases (s.node x).remoteThread y with
  | waiting => exact inferInstanceAs (Decidable (_ ≤ _))
  | appendEntries => exact inferInstanceAs (Decidable (_ ≤ _))
  | requestVote => exact .isTrue trivial

/-- The clocks go on together, the calls of `x` go through, in no longer than `δ`, and its loops are
no later than `ε`. -/
def Timely (x : Fin n) (δ ε : ℕ) (s : TimedCluster n) : TimedAction n → Prop
  | .tick now => (∀ y, s.now y ≤ now y ∧ now y + s.now x = now x + s.now y) ∧
      ∀ y, y ≠ x → s.LoopInTime x δ ε (now x) y
  | .act (.aeNotConnected k) _ | .act (.aeFail k) _ => ∀ c ∈ s.aeCalls[k]?, c.src ≠ x
  | _ => True

instance (s : TimedCluster n) (a : TimedAction n) : Decidable (Timely x δ ε s a) := by
  unfold Timely
  split
  all_goals infer_instance

theorem Timely.forward (h : Timely x δ ε s a) : Forward s a := by
  cases a with
  | tick => exact fun y => (h.1 y).1
  | _ => trivial

namespace Hears

/-- The follower has put its election off lately. -/
theorem recent (h : Hears x T δ ε s y) :
    s.now y ≤ (s.timer y).postponedAt + milliseconds 250 + (2 * δ + ε) := by
  cases h with
  | waiting _ hage hdue => omega
  | called _ _ _ _ _ _ hage hdue => omega
  | answered _ _ _ hage hdue => omega

/-- Time goes by. -/
theorem tick {now : Fin n → ℕ} (h : Hears x T δ ε s y) (hx : s.now x ≤ now x)
    (hy : now y + s.now x = now x + s.now y) (ht : s.LoopInTime x δ ε (now x) y) :
    Hears x T δ ε { s with now := now } y := by
  unfold LoopInTime at ht
  cases h with
  | waiting hth hage =>
    rw [hth] at ht
    refine .waiting hth ?_ ht
    simp only
    omega
  | called hth hc hdst hreq hp hb hage =>
    rw [hth] at ht
    refine .called hth hc hdst hreq hp ?_ ?_ ht
    · simp only
      omega
    · simp only
      omega
  | answered hth hc hp hage =>
    rw [hth] at ht
    refine .answered hth hc hp ?_ ht
    simp only
    omega

/-- Nothing changes but that `y` may have put its election off. -/
theorem mono (h : Hears x T δ ε s y) (hc : s'.toCluster = s.toCluster) (hn : s'.now = s.now)
    (hb : s'.builtAt = s.builtAt) (hr : (s'.timer x).remoteDue = (s.timer x).remoteDue)
    (hp : (s.timer y).postponedAt ≤ (s'.timer y).postponedAt) : Hears x T δ ε s' y := by
  cases h with
  | waiting hth hage hdue =>
    refine .waiting (hc ▸ hth) ?_ ?_
    · rw [hr, hn]
      omega
    · rw [hr, hn]
      exact hdue
  | called hth hk hdst hreq hph hb' hage hdue =>
    refine .called (hc ▸ hth) (hc ▸ hk) hdst hreq hph ?_ ?_ ?_
    · rwa [hb, hn]
    · rw [hb, hn]
      omega
    · rwa [hb, hn]
  | answered hth hk hph hage hdue =>
    refine .answered (hc ▸ hth) (hc ▸ hk) hph ?_ ?_
    · rw [hb, hn]
      omega
    · rwa [hb, hn]

section Act

variable {b : Action n} {delay : ℕ} {t : Cluster n}

theorem postponed_after (hk : s.Kept) :
    (s.timer y).postponedAt ≤ (s.timerAfter b delay t y).postponedAt := by
  rw [timerAfter_postponedAt]
  split_ifs
  · exact (hk y).postponed
  · exact le_rfl

/-- An action that the loop does not take. -/
theorem of_other (h : Hears x T δ ε s y) (hk : s.Kept) (hT : (s.node y).currentTerm = T)
    (hst : s.toCluster.step b = some t) (hl : s.remoteLoop b ≠ some (x, y)) :
    Hears x T δ ε { toCluster := t, now := s.now, timer := s.timerAfter b delay t
                    builtAt := s.builtAfter b } y := by
  have hth := step_remoteThread hst hl
  have hp : (s.timer y).postponedAt ≤ (s.timerAfter b delay t y).postponedAt :=
    postponed_after hk
  cases h with
  | waiting h hage hdue =>
    have hd : (s.timerAfter b delay t x).remoteDue y = (s.timer x).remoteDue y :=
      timerAfter_remoteDue.trans (if_neg fun h => hl h.1)
    refine .waiting (hth.trans h) ?_ ?_
    · simp only [hd]
      omega
    · simp only [hd]
      exact hdue
  | @called k c h hc hdst hreq hph hb hage hdue =>
    have hbk : s.builtAfter b k = s.builtAt k :=
      builtAfter_of_lt (List.getElem?_eq_some_iff.1 hc).1
    obtain ⟨ph, hc', hph'⟩ := step_call hst hc
    by_cases hnone : ph.resp? = none
    · refine .called (hth.trans h) hc' hdst hreq hnone ?_ ?_ ?_
      · simp only [hbk]
        exact hb
      · simp only [hbk]
        omega
      · simp only [hbk]
        exact hdue
    · -- the follower has just handled the call, and put its election off
      rcases hph' with he | ⟨rfl, -⟩
      · exact absurd (he.trans hph) hnone
      · have hput : s.postpones (.aeHandle k) = some y := by
          simp only [postpones, hc, Option.bind_eq_bind, Option.bind_some, hdst, hT, hreq, le_refl,
            if_true]
        have hnow : (s.timerAfter (.aeHandle k) delay t y).postponedAt = s.now y :=
          timerAfter_postponedAt.trans (if_pos hput)
        refine .answered (hth.trans h) hc' hnone ?_ ?_
        · simp only [hbk, hnow]
          omega
        · simp only [hbk]
          exact hdue
  | @answered k c h hc hph hage hdue =>
    have hbk : s.builtAfter b k = s.builtAt k :=
      builtAfter_of_lt (List.getElem?_eq_some_iff.1 hc).1
    obtain ⟨ph, hc', hph'⟩ := step_call hst hc
    have hsome : ph.resp? ≠ none := by
      rcases hph' with he | ⟨-, hne⟩
      · rwa [he]
      · exact hne
    refine .answered (hth.trans h) hc' hsome ?_ ?_
    · simp only [hbk]
      omega
    · simp only [hbk]
      exact hdue

/-- The loop builds its next call. -/
theorem of_call {t₀ : Cluster n} (hk : s.Kept) (hne : x ≠ y)
    (hlen : t₀.aeCalls.length = s.aeCalls.length) (hT : (t₀.node x).currentTerm = T)
    (hl : s.remoteLoop b = some (x, y))
    (hage : s.now y ≤ (s.timer y).postponedAt + milliseconds 250 + δ + ε) :
    Hears x T δ ε { toCluster := t₀.callAppendEntries x y hne, now := s.now
                    timer := s.timerAfter b delay (t₀.callAppendEntries x y hne)
                    builtAt := s.builtAfter b } y := by
  have hp : (s.timer y).postponedAt ≤
      (s.timerAfter b delay (t₀.callAppendEntries x y hne) y).postponedAt := postponed_after hk
  have hb : s.builtAfter b t₀.aeCalls.length = s.now x := by rw [hlen, builtAfter_length hl]
  have hth : ((t₀.callAppendEntries x y hne).node x).remoteThread y =
      .appendEntries t₀.aeCalls.length := by
    simp [callAppendEntries, setThread]
  have hc : (t₀.callAppendEntries x y hne).aeCalls[t₀.aeCalls.length]? = some
      ⟨x, y, hne, (t₀.node x).appendEntriesRequest x y, (t₀.node x).log.memoryLog, .built⟩ := by
    simp [callAppendEntries]
  refine .called hth hc rfl hT rfl ?_ ?_ ?_
  · simp only [hb, le_refl]
  · simp only [hb]
    omega
  · simp only [hb]
    omega

/-- The loop takes up a response. -/
theorem of_return {k : ℕ} (h : Hears x T δ ε s y) (hk : s.Kept) (hx : (t.node x).currentTerm = T)
    (hlead : (t.node x).currentRole = .kLeader) (hst : s.toCluster.step (.aeReturn k) = some t)
    (hl : s.remoteLoop (.aeReturn k) = some (x, y))
    (hth : (s.node x).remoteThread y = .appendEntries k) :
    Hears x T δ ε { toCluster := t, now := s.now, timer := s.timerAfter (.aeReturn k) delay t
                    builtAt := s.builtAfter (.aeReturn k) } y := by
  have hp : (s.timer y).postponedAt ≤ (s.timerAfter (.aeReturn k) delay t y).postponedAt :=
    postponed_after hk
  have hage : s.now y ≤ (s.timer y).postponedAt + δ := by
    cases h with
    | waiting h =>
      rw [hth] at h
      cases h
    | called h hc _ _ hph =>
      rw [hth] at h
      cases h
      obtain ⟨c, hc', hstep⟩ := Option.bind_eq_some_iff.1 hst
      obtain rfl := Option.some.inj (hc.symm.trans hc')
      split at hstep
      · rename_i resp hresp
        rw [hresp] at hph
        cases hph
      · cases hstep
    | answered h _ _ hage hdue =>
      rw [hth] at h
      cases h
      omega
  obtain ⟨t₀, hch, hgoes⟩ := step_goes hst
  rw [hl] at hgoes
  cases hgoes with
  | wait =>
    have hwait : ((t₀.setThread x y .waiting).node x).remoteThread y = .waiting := by
      simp [setThread]
    have hd : (s.timerAfter (.aeReturn k) delay (t₀.setThread x y .waiting) x).remoteDue y =
        s.now x + milliseconds 250 :=
      timerAfter_remoteDue.trans (if_pos ⟨hl, hwait⟩)
    refine .waiting hwait ?_ ?_
    · simp only [hd]
      omega
    · simp only [hd]
      omega
  | appendEntries hne =>
    have hT : (t₀.node x).currentTerm = T := by simpa [callAppendEntries, setThread] using hx
    exact of_call hk hne (hch.aeCalls t₀).2 hT hl (by omega)
  | requestVote hne hcand =>
    have hcand' : ((t₀.callRequestVote x y hne).node x).currentRole = .kCandidate := by
      simpa [callRequestVote, setThread] using hcand
    rw [hlead] at hcand'
    cases hcand'

end Act

end Hears

namespace Settled

theorem not_candidate (h : Settled x T δ ε s) (y : Fin n) :
    (s.node y).currentRole ≠ .kCandidate := by
  by_cases hy : y = x
  · rw [hy, h.leads]
    simp
  · rw [h.follow y hy]
    simp

/-- No one calls an election. -/
theorem not_elects (h : Settled x T δ ε s) (hk : s.Kept) (hδ : 2 * δ + ε < milliseconds 250)
    (y : Fin n) : ¬ s.Elects y a := by
  intro he
  by_cases hy : y = x
  · subst hy
    cases a with
    | checkLoop z =>
      have hl := Node.isLeader_eq_true.2 h.leads
      rw [he.2.1.1] at hl
      cases hl
    | _ => exact he.elim
  · have hrec := (h.hears y hy).recent
    have hsp := he.spaced hk
    have hms : milliseconds Timer.lowerBound = milliseconds 250 + milliseconds 250 := rfl
    omega

theorem act {b : Action n} {delay : ℕ} {t : Cluster n} (h : Settled x T δ ε s)
    (hr : (timedCluster n).Reach Forward s) (hg : Timely x δ ε s (.act b delay))
    (hb : ∀ x, b ≠ .leaderTimeout x) (hst : s.toCluster.step b = some t) :
    Settled x T δ ε { toCluster := t, now := s.now, timer := s.timerAfter b delay t
                      builtAt := s.builtAfter b } := by
  have hkept := reach_kept (fun _ _ hg => hg) hr
  have hnode := step_settled (reach_toCluster hr) h.term h.not_candidate hst hb
  have hlead : (t.node x).currentRole = .kLeader := (hnode x).2.trans h.leads
  refine ⟨fun y => (hnode y).1, hlead, fun y hy => (hnode y).2.trans (h.follow y hy),
    fun y hy => ?_⟩
  have hears := h.hears y hy
  by_cases hl : s.remoteLoop b = some (x, y)
  · rcases loop_cases hst hl with ⟨rfl, hth⟩ | ⟨k, rfl | rfl | rfl, hth⟩ | ⟨k, hth⟩
    · have ht : t = s.callAppendEntries x y (Ne.symm hy) := by
        simp only [Cluster.step, dif_pos (Ne.symm hy), hth, if_true, remoteHostLoop, h.leads,
          Option.some.injEq] at hst
        exact hst.symm
      subst ht
      refine .of_call hkept (Ne.symm hy) rfl (h.term x) hl ?_
      cases hears with
      | waiting _ hage hdue => omega
      | called h | answered h =>
        rw [hth] at h
        cases h
    · exact hears.of_return hkept (hnode x).1 hlead hst hl hth
    · obtain ⟨c, hc, he⟩ := Option.map_eq_some_iff.1 hl
      exact absurd (congrArg Prod.fst he) (hg c hc)
    · obtain ⟨c, hc, he⟩ := Option.map_eq_some_iff.1 hl
      exact absurd (congrArg Prod.fst he) (hg c hc)
    · cases hears with
      | waiting h | called h | answered h =>
        rw [hth] at h
        cases h
  · exact hears.of_other hkept (h.term y) hst hl

theorem step (h : Settled x T δ ε s) (hr : (timedCluster n).Reach Forward s)
    (hδ : 2 * δ + ε < milliseconds 250) (hg : Timely x δ ε s a) (hst : s.step a = some s') :
    Settled x T δ ε s' := by
  have hkept := reach_kept (fun _ _ hg => hg) hr
  have hput := fun y => step_postponedAt hkept hst y
  cases step_cases hst with
  | tick =>
    obtain ⟨hnow, htime⟩ := hg
    exact ⟨h.term, h.leads, h.follow,
      fun y hy => (h.hears y hy).tick (hnow x).1 (hnow y).2 (htime y hy)⟩
  | act hb _ hb' => exact h.act hr hg hb hb'
  | @elect z delay since _ hth hdue =>
    exact absurd ⟨rfl, hdue, since, hth⟩ (h.not_elects (a := .checkLoop z delay) hkept hδ z)
  | start | wait | wake =>
    refine ⟨h.term, h.leads, h.follow, fun y hy => ?_⟩
    refine (h.hears y hy).mono rfl rfl rfl ?_ (hput y)
    simp only [setTimer, Function.update_apply]
    split_ifs with hx
    · rw [hx]
      rfl
    · rfl

end Settled

/-- From where all nodes are in the leader's term and hear from it, in every run in which the calls
of the leader go through in no longer than `δ` and its loops are no later than `ε`, twice `δ` and
`ε` being less than a quarter of a second, the leader leads, the others follow, and no one calls an
election. -/
theorem leader_stable {s₀ : TimedCluster n} (h₀ : (timedCluster n).Reach Forward s₀)
    (hδ : 2 * δ + ε < milliseconds 250) (hs : Settled x T δ ε s₀)
    (h : (timedCluster n).Later (Timely x δ ε) s₀ s) :
    (∀ y, (s.node y).currentTerm = T ∧
      ((s.node y).currentRole = if y = x then Role.kLeader else Role.kFollower)) ∧
    ∀ y a, ¬ s.Elects y a := by
  have hI : (timedCluster n).Reach Forward s ∧ Settled x T δ ε s := by
    refine h.inv (I := fun s => (timedCluster n).Reach Forward s ∧ Settled x T δ ε s) ⟨h₀, hs⟩ ?_
    exact fun t a t' hI hg hst => ⟨hI.1.step hg.forward hst, hI.2.step hI.1 hδ hg hst⟩
  obtain ⟨hr, hI⟩ := hI
  refine ⟨fun y => ⟨hI.term y, ?_⟩, fun y a => ?_⟩
  · split_ifs with hy
    · exact hy ▸ hI.leads
    · exact hI.follow y hy
  · exact hI.not_elects (reach_kept (fun _ _ hg => hg) hr) hδ y

/-- Node `x` wins the first term and is heard by the two others, who answer. -/
def leadFirst (x y z : Fin 3) : List (TimedAction 3) :=
  standFirst x y ++ [.remoteWake x y, .rvSend 0, .rvHandle 0, .rvReturn 0, .remoteWake x z,
    .aeSend 0, .aeHandle 0, .aeSend 1, .aeHandle 1, .aeReturn 0, .aeReturn 1].map (.act · 500)

/-- Node `0` is heard again after a quarter of a second. -/
theorem leader_stable_heard :
    ∃ s₀ s, (timedCluster 3).Reach Forward s₀ ∧ Settled 0 1 (milliseconds 50) (milliseconds 20) s₀ ∧
      (timedCluster 3).Later (Timely 0 (milliseconds 50) (milliseconds 20)) s₀ s ∧
      s.now 0 = milliseconds 790 ∧ s.aeCalls.length = 4 ∧
      (∀ y, (s.node y).currentTerm = 1 ∧
        ((s.node y).currentRole = if y = 0 then Role.kLeader else Role.kFollower)) ∧
      ∀ y a, ¬ s.Elects y a := by
  let s₀ := (timedCluster 3).run Forward timedStart3 (leadFirst 0 1 2)
  let s := (timedCluster 3).run (Timely 0 (milliseconds 50) (milliseconds 20)) s₀
    ([.tick fun _ => milliseconds 760] ++
      [.remoteWake 0 1, .remoteWake 0 2, .aeSend 2, .aeSend 3].map (.act · 500) ++
      [.tick fun _ => milliseconds 790] ++
      [.aeHandle 2, .aeHandle 3, .aeReturn 2, .aeReturn 3].map (.act · 500))
  have h₀ : (timedCluster 3).Reach Forward s₀ :=
    Runs.Sys.reach_run (.init init_timedStart3) (by decide +kernel)
  have hears : ∀ y, y ≠ 0 → (s₀.node 0).remoteThread y = .waiting ∧
      (s₀.timer 0).remoteDue y + s₀.now y ≤
        s₀.now 0 + (s₀.timer y).postponedAt + milliseconds 250 + milliseconds 50 ∧
      s₀.now 0 ≤ (s₀.timer 0).remoteDue y + milliseconds 20 := by decide +kernel
  have hs : Settled 0 1 (milliseconds 50) (milliseconds 20) s₀ :=
    ⟨by decide +kernel, by decide +kernel, by decide +kernel,
      fun y hy => .waiting (hears y hy).1 (hears y hy).2.1 (hears y hy).2.2⟩
  have hl : (timedCluster 3).Later (Timely 0 (milliseconds 50) (milliseconds 20)) s₀ s :=
    Runs.Sys.later_run (by decide +kernel)
  exact ⟨s₀, s, h₀, hs, hl, by decide +kernel, by decide +kernel,
    leader_stable h₀ (by decide) hs hl⟩

end TimedCluster

end RaftFS
