import RaftFS.Proofs.Heartbeats

/-!
# A round in time

A leader that is heard in time calls each remote again and again: whenever its clock has gone on by
more than a quarter of a second, twice `δ` and `ε`, each remote has answered a call that has been
built since, and the leader has taken the answer up (`cameBack`).
-/

namespace RaftFS

variable {n : ℕ}

namespace Cluster

variable {s s' : Cluster n} {a : Action n} {x y : Fin n} {K : ℕ}

/-- One of the calls that `x` has made of `y` since there were `K` has been answered, and the answer
has been taken up. -/
def CameBack (x y : Fin n) (K : ℕ) (s : Cluster n) : Prop :=
  ∃ k c, K ≤ k ∧ s.aeCalls[k]? = some c ∧ c.src = x ∧ c.dst = y ∧ c.phase.resp? ≠ none ∧
    (s.node x).remoteThread y ≠ .appendEntries k

theorem step_thread (h : s.step a = some s') :
    (s'.node x).remoteThread y = (s.node x).remoteThread y ∨
      (s'.node x).remoteThread y = .waiting ∨
      (s'.node x).remoteThread y = .appendEntries s.aeCalls.length ∨
      ∃ k, (s'.node x).remoteThread y = .requestVote k := by
  by_cases hl : s.remoteLoop a = some (x, y)
  · obtain ⟨t, hc, hg⟩ := step_goes h
    rw [hl] at hg
    have hlen := (hc.aeCalls s').2
    cases hg with
    | wait => exact .inr (.inl (by simp [setThread]))
    | appendEntries => exact .inr (.inr (.inl (by simp [callAppendEntries, setThread, hlen])))
    | requestVote => exact .inr (.inr (.inr ⟨_, by simp [callRequestVote, setThread]; rfl⟩))
  · exact .inl (step_remoteThread h hl)

theorem CameBack.step (h : CameBack x y K s) (hst : s.step a = some s') : CameBack x y K s' := by
  obtain ⟨k, c, hk, hc, hsrc, hdst, hp, hth⟩ := h
  obtain ⟨ph, hc', hph⟩ := step_call hst hc
  refine ⟨k, _, hk, hc', hsrc, hdst, ?_, ?_⟩
  · rcases hph with he | ⟨-, hne⟩
    · rwa [he]
    · exact hne
  · rcases step_thread (x := x) (y := y) hst with he | he | he | ⟨j, he⟩
    · rwa [he]
    · simp [he]
    · have hlt := (List.getElem?_eq_some_iff.1 hc).1
      rw [he, ne_eq, RemoteThread.appendEntries.injEq]
      exact hlt.ne'
    · simp [he]

theorem step_length (h : s.step a = some s') : s.aeCalls.length ≤ s'.aeCalls.length := by
  by_contra hlt
  obtain ⟨ph, hk⟩ := (step_keeps h).aeCalls s'.aeCalls.length _
    (List.getElem?_eq_getElem (not_le.1 hlt))
  exact absurd (List.getElem?_eq_some_iff.1 hk).1 (lt_irrefl _)

end Cluster

namespace TimedCluster

open Cluster

variable {s s' : TimedCluster n} {a : TimedAction n} {x y : Fin n} {T δ ε K t₁ : ℕ}

/-- How far the loop of `x` for `y` has come since there were `K` calls and the clock read `t₁`: it
waits, it is in an older call, it is in a newer one, or one has come back. -/
inductive Turns (x y : Fin n) (K t₁ δ ε : ℕ) (s : TimedCluster n) : Prop
  | before (h : (s.node x).remoteThread y = .waiting)
    (hdue : (s.timer x).remoteDue y ≤ t₁ + milliseconds 250 + δ)
  | older {k : ℕ} (h : (s.node x).remoteThread y = .appendEntries k) (hk : k < K)
    (hb : s.builtAt k ≤ t₁)
  | newer {k : ℕ} (h : (s.node x).remoteThread y = .appendEntries k) (hk : K ≤ k)
    (hb : s.builtAt k ≤ t₁ + milliseconds 250 + δ + ε)
  | back (h : CameBack x y K s.toCluster)

theorem Turns.start (hk : s.Kept) (h : Hears x T δ ε s y) :
    Turns x y s.aeCalls.length (s.now x) δ ε s := by
  have hp := (hk y).postponed
  cases h with
  | waiting h hage =>
    refine .before h ?_
    omega
  | called h hc _ _ _ hb => exact .older h (List.getElem?_eq_some_iff.1 hc).1 hb
  | answered h hc _ hage =>
    refine .older h (List.getElem?_eq_some_iff.1 hc).1 ?_
    omega

theorem Turns.mono (h : Turns x y K t₁ δ ε s) (hc : s'.toCluster = s.toCluster)
    (hb : s'.builtAt = s.builtAt) (hr : (s'.timer x).remoteDue = (s.timer x).remoteDue) :
    Turns x y K t₁ δ ε s' := by
  cases h with
  | before h hdue => exact .before (hc ▸ h) (hr ▸ hdue)
  | older h hk hb' => exact .older (hc ▸ h) hk (hb ▸ hb')
  | newer h hk hb' => exact .newer (hc ▸ h) hk (hb ▸ hb')
  | back h => exact .back (hc ▸ h)

section Act

variable {b : Action n} {delay : ℕ} {t : Cluster n}

/-- An action that the loop does not take. -/
theorem Turns.of_other (h : Turns x y K t₁ δ ε s) (hears : Hears x T δ ε s y)
    (hst : s.toCluster.step b = some t) (hl : s.remoteLoop b ≠ some (x, y)) :
    Turns x y K t₁ δ ε { toCluster := t, now := s.now, timer := s.timerAfter b delay t
                         builtAt := s.builtAfter b } := by
  have hth := step_remoteThread hst hl
  have hbuilt : ∀ k, (s.node x).remoteThread y = .appendEntries k →
      s.builtAfter b k = s.builtAt k := by
    intro k hk
    cases hears with
    | waiting h =>
      rw [hk] at h
      cases h
    | called h hc | answered h hc =>
      rw [hk] at h
      cases h
      exact builtAfter_of_lt (List.getElem?_eq_some_iff.1 hc).1
  cases h with
  | before h hdue =>
    refine .before (hth.trans h) ?_
    rw [show (s.timerAfter b delay t x).remoteDue y = (s.timer x).remoteDue y from
      timerAfter_remoteDue.trans (if_neg fun h => hl h.1)]
    exact hdue
  | older h hk hb =>
    refine .older (hth.trans h) hk ?_
    simp only [hbuilt _ h]
    exact hb
  | newer h hk hb =>
    refine .newer (hth.trans h) hk ?_
    simp only [hbuilt _ h]
    exact hb
  | back h => exact .back (h.step hst)

theorem Turns.of_call {t₀ : Cluster n} (hne : x ≠ y)
    (hlen : t₀.aeCalls.length = s.aeCalls.length) (hK : K ≤ s.aeCalls.length)
    (hl : s.remoteLoop b = some (x, y)) (hnow : s.now x ≤ t₁ + milliseconds 250 + δ + ε) :
    Turns x y K t₁ δ ε { toCluster := t₀.callAppendEntries x y hne, now := s.now
                         timer := s.timerAfter b delay (t₀.callAppendEntries x y hne)
                         builtAt := s.builtAfter b } := by
  refine .newer (k := t₀.aeCalls.length) ?_ (hlen ▸ hK) ?_
  · simp [callAppendEntries, setThread]
  · simp only [hlen, builtAfter_length hl]
    exact hnow

/-- The loop takes up a response. -/
theorem Turns.of_return {k : ℕ} (h : Turns x y K t₁ δ ε s) (hears : Hears x T δ ε s y)
    (hK : K ≤ s.aeCalls.length) (hlead : (t.node x).currentRole = .kLeader)
    (hst : s.toCluster.step (.aeReturn k) = some t)
    (hl : s.remoteLoop (.aeReturn k) = some (x, y))
    (hth : (s.node x).remoteThread y = .appendEntries k) :
    Turns x y K t₁ δ ε { toCluster := t, now := s.now, timer := s.timerAfter (.aeReturn k) delay t
                         builtAt := s.builtAfter (.aeReturn k) } := by
  have hdue : s.now x ≤ s.builtAt k + δ := by
    cases hears with
    | waiting h =>
      rw [hth] at h
      cases h
    | called h _ _ _ _ _ _ hdue | answered h _ _ _ hdue =>
      rw [hth] at h
      cases h
      exact hdue
  cases h with
  | before h =>
    rw [hth] at h
    cases h
  | @older j h hj hb =>
    obtain rfl := RemoteThread.appendEntries.inj (hth.symm.trans h)
    obtain ⟨t₀, hch, hgoes⟩ := step_goes hst
    rw [hl] at hgoes
    cases hgoes with
    | wait =>
      have hwait : ((t₀.setThread x y .waiting).node x).remoteThread y = .waiting := by
        simp [setThread]
      refine .before hwait ?_
      rw [show (s.timerAfter (.aeReturn k) delay (t₀.setThread x y .waiting) x).remoteDue y =
        s.now x + milliseconds 250 from timerAfter_remoteDue.trans (if_pos ⟨hl, hwait⟩)]
      omega
    | appendEntries hne => exact .of_call hne (hch.aeCalls t₀).2 hK hl (by omega)
    | requestVote hne hcand =>
      have hcand' : ((t₀.callRequestVote x y hne).node x).currentRole = .kCandidate := by
        simpa [callRequestVote, setThread] using hcand
      rw [hlead] at hcand'
      cases hcand'
  | @newer j h hj hb =>
    obtain rfl := RemoteThread.appendEntries.inj (hth.symm.trans h)
    obtain ⟨c, hc, hstep⟩ := Option.bind_eq_some_iff.1 hst
    have hp : c.phase.resp? ≠ none := by
      intro h0
      split at hstep
      · rename_i hp
        rw [hp] at h0
        cases h0
      · cases hstep
    obtain ⟨d, hd, he⟩ := Option.map_eq_some_iff.1 hl
    obtain rfl := Option.some.inj (hc.symm.trans hd)
    obtain ⟨rfl, rfl⟩ := Prod.mk.inj he
    obtain ⟨ph, hc', hph⟩ := step_call hst hc
    refine .back ⟨k, _, hj, hc', rfl, rfl, ?_, ?_⟩
    · rcases hph with he | ⟨-, hne⟩
      · rwa [he]
      · exact hne
    · -- it waits, or it is in the next call
      obtain ⟨t₀, hch, hgoes⟩ := step_goes hst
      rw [hl] at hgoes
      have hlt := (List.getElem?_eq_some_iff.1 hc).1
      have hlen := (hch.aeCalls t₀).2
      cases hgoes with
      | wait => simp [setThread]
      | appendEntries =>
        simp only [callAppendEntries, setThread, setNode_node, Function.update_self, ne_eq,
          RemoteThread.appendEntries.injEq]
        omega
      | requestVote => simp [callRequestVote, setThread]
  | back h => exact .back (h.step hst)

theorem Turns.act (h : Turns x y K t₁ δ ε s) (hs : Settled x T δ ε s)
    (hr : (timedCluster n).Reach Forward s) (hy : y ≠ x) (hK : K ≤ s.aeCalls.length)
    (hg : Timely x δ ε s (.act b delay)) (hb : ∀ x, b ≠ .leaderTimeout x)
    (hst : s.toCluster.step b = some t) :
    Turns x y K t₁ δ ε { toCluster := t, now := s.now, timer := s.timerAfter b delay t
                         builtAt := s.builtAfter b } := by
  have hnode := step_settled (reach_toCluster hr) hs.term hs.not_candidate hst hb
  have hears := hs.hears y hy
  by_cases hl : s.remoteLoop b = some (x, y)
  · rcases loop_cases hst hl with ⟨rfl, hth⟩ | ⟨k, rfl | rfl | rfl, hth⟩ | ⟨k, hth⟩
    · have ht : t = s.callAppendEntries x y (Ne.symm hy) := by
        simp only [Cluster.step, dif_pos (Ne.symm hy), hth, if_true, remoteHostLoop, hs.leads,
          Option.some.injEq] at hst
        exact hst.symm
      cases h with
      | before _ hdue =>
        subst ht
        refine .of_call (Ne.symm hy) rfl hK hl ?_
        cases hears with
        | waiting _ _ hdue' => omega
        | called h | answered h =>
          rw [hth] at h
          cases h
      | older h | newer h =>
        rw [hth] at h
        cases h
      | back h => exact .back (h.step hst)
    · exact h.of_return hears hK ((hnode x).2.trans hs.leads) hst hl hth
    · obtain ⟨c, hc, he⟩ := Option.map_eq_some_iff.1 hl
      exact absurd (congrArg Prod.fst he) (hg c hc)
    · obtain ⟨c, hc, he⟩ := Option.map_eq_some_iff.1 hl
      exact absurd (congrArg Prod.fst he) (hg c hc)
    · cases hears with
      | waiting h | called h | answered h =>
        rw [hth] at h
        cases h
  · exact h.of_other hears hst hl

end Act

/-- The loop comes round in time. -/
theorem Turns.cameBack (h : Turns x y K t₁ δ ε s) (hears : Hears x T δ ε s y)
    (hnow : t₁ + milliseconds 250 + (2 * δ + ε) < s.now x) : CameBack x y K s.toCluster := by
  cases h with
  | before h hdue =>
    cases hears with
    | waiting _ _ hdue' => omega
    | called h' | answered h' =>
      rw [h] at h'
      cases h'
  | older h _ hb | newer h _ hb =>
    cases hears with
    | waiting h' =>
      rw [h] at h'
      cases h'
    | called h' _ _ _ _ _ _ hdue | answered h' _ _ _ hdue =>
      rw [h] at h'
      cases h'
      omega
  | back h => exact h

/-- In a run in time, each remote has answered a call that has been built since `s₁`, and the answer
has been taken up, once the leader's clock has gone on by more than a quarter of a second, twice `δ`
and `ε`. -/
theorem cameBack {s₁ : TimedCluster n} (h₁ : (timedCluster n).Reach Forward s₁)
    (hδ : 2 * δ + ε < milliseconds 250) (hs : Settled x T δ ε s₁)
    (h : (timedCluster n).Later (Timely x δ ε) s₁ s)
    (hnow : s₁.now x + milliseconds 250 + (2 * δ + ε) < s.now x) (hy : y ≠ x) :
    CameBack x y s₁.aeCalls.length s.toCluster := by
  have hI : (timedCluster n).Reach Forward s ∧ Settled x T δ ε s ∧
      s₁.aeCalls.length ≤ s.aeCalls.length ∧
      Turns x y s₁.aeCalls.length (s₁.now x) δ ε s := by
    refine h.inv (I := fun s => (timedCluster n).Reach Forward s ∧ Settled x T δ ε s ∧
      s₁.aeCalls.length ≤ s.aeCalls.length ∧
      Turns x y s₁.aeCalls.length (s₁.now x) δ ε s) ?_ ?_
    · have hk := reach_kept (fun _ _ hg => hg) h₁
      exact ⟨h₁, hs, le_rfl, .start hk (hs.hears y hy)⟩
    · rintro t a t' ⟨hr, hs, hlen, ht⟩ hg hst
      have hkept := reach_kept (fun _ _ hg => hg) hr
      refine ⟨.step hr hg.forward hst, hs.step hr hδ hg hst, ?_, ?_⟩
      · cases step_cases hst with
        | act _ _ hst' => exact hlen.trans (step_length hst')
        | _ => exact hlen
      · cases step_cases hst with
        | act hb _ hst' => exact ht.act hs hr hy hlen hg hb hst'
        | @elect z delay since _ hth hdue =>
          exact absurd ⟨rfl, hdue, since, hth⟩ (hs.not_elects (a := .checkLoop z delay) hkept hδ z)
        | tick => exact ht.mono rfl rfl rfl
        | start | wait | wake =>
          refine ht.mono rfl rfl ?_
          simp only [setTimer, Function.update_apply]
          split_ifs with hx
          · rw [hx]
            rfl
          · rfl
  obtain ⟨-, hs, -, ht⟩ := hI
  exact ht.cameBack (hs.hears y hy) hnow

end TimedCluster

end RaftFS
