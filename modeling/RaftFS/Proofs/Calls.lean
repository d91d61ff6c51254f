import RaftFS.Proofs.Votes

/-!
# The calls in a run

A call keeps its place in the list and what it was made with, and only its phase moves on
(`keeps_later`). After a step it is one from before, which may have been handled in the step, or
it has just been made, by a leader or a candidate out of what it then has (`step_aeCalls`,
`step_rvCalls`), so what it has then and keeps it has in every run (`reach_aeCalls`). What has
happened stays in the history.
-/

namespace RaftFS

variable {n : ℕ}

namespace Cluster

/-- What may be at the place `k` among the calls of `AppendEntries` after a step. -/
inductive AECallStep (s : Cluster n) (a : Action n) (s' : Cluster n) (k : ℕ) :
    AppendEntriesCall n → Prop
  | same {c : AppendEntriesCall n} {ph : Phase AppendEntriesResponse}
    (hc : s.aeCalls[k]? = some c) (hp : ph.resp? = c.phase.resp?) :
    AECallStep s a s' k { c with phase := ph }
  | handled {c : AppendEntriesCall n} {nd : Node n} {resp : AppendEntriesResponse}
    (hc : s.aeCalls[k]? = some c) (ha : a = .aeHandle k)
    (h : (s.node c.dst).onAppendEntries c.req = some (nd, resp)) :
    AECallStep s a s' k { c with phase := .handled resp }
  | made {x r : Fin n} (h : x ≠ r) (hk : k = s.aeCalls.length)
    (hl : (s'.node x).currentRole = .kLeader) :
    AECallStep s a s' k
      ⟨x, r, h, (s'.node x).appendEntriesRequest x r, (s'.node x).log.memoryLog, .built⟩

/-- What may be at the place `k` among the calls of `RequestVote` after a step. -/
inductive RVCallStep (s s' : Cluster n) (k : ℕ) : RequestVoteCall n → Prop
  | same {c : RequestVoteCall n} {ph : Phase ReqVoteResponse} (hc : s.rvCalls[k]? = some c)
    (hp : ph.resp? = c.phase.resp?) : RVCallStep s s' k { c with phase := ph }
  | handled {c : RequestVoteCall n} (hc : s.rvCalls[k]? = some c) :
    RVCallStep s s' k { c with phase := .handled ((s.node c.dst).onRequestVote c.req).2 }
  | made {x r : Fin n} (h : x ≠ r) (hl : (s'.node x).currentRole = .kCandidate) :
    RVCallStep s s' k ⟨x, r, h, (s'.node x).reqVoteRequest x, .built⟩

theorem AECallStep.of_getElem? {s s' : Cluster n} {a : Action n} {k : ℕ} {c : AppendEntriesCall n}
    (h : s.aeCalls[k]? = some c) : AECallStep s a s' k c := by
  have hs : AECallStep s a s' k { c with phase := c.phase } := .same h rfl
  exact hs

theorem RVCallStep.of_getElem? {s s' : Cluster n} {k : ℕ} {c : RequestVoteCall n}
    (h : s.rvCalls[k]? = some c) : RVCallStep s s' k c := by
  have hs : RVCallStep s s' k { c with phase := c.phase } := .same h rfl
  exact hs

theorem Change.aeCalls {s t : Cluster n} {a : Action n} (h : s.Change a t) (s' : Cluster n) :
    (∀ k c, t.aeCalls[k]? = some c → AECallStep s a s' k c) ∧
      t.aeCalls.length = s.aeCalls.length := by
  cases h with
  | aeSend hc hp =>
    refine ⟨fun j d hd => ?_, List.length_set⟩
    rcases getElem?_set_cases hd with ⟨rfl, rfl⟩ | hd
    · exact .same hc (by rw [hp]; rfl)
    · exact .of_getElem? hd
  | aeHandle hc hp hap =>
    refine ⟨fun j d hd => ?_, List.length_set⟩
    rcases getElem?_set_cases hd with ⟨rfl, rfl⟩ | hd
    · exact .handled hc rfl hap
    · exact .of_getElem? hd
  | _ => exact ⟨fun j d hd => .of_getElem? hd, rfl⟩

theorem Change.rvCalls {s t : Cluster n} {a : Action n} (h : s.Change a t) (s' : Cluster n)
    {k : ℕ} {c : RequestVoteCall n} (hc : t.rvCalls[k]? = some c) : RVCallStep s s' k c := by
  cases h with
  | rvSend hc' hp =>
    rcases getElem?_set_cases hc with ⟨rfl, rfl⟩ | hc
    · exact .same hc' (by rw [hp]; rfl)
    · exact .of_getElem? hc
  | rvHandle hc' =>
    rcases getElem?_set_cases hc with ⟨rfl, rfl⟩ | hc
    · exact .handled hc'
    · exact .of_getElem? hc
  | _ => exact .of_getElem? hc

theorem step_aeCalls {s s' : Cluster n} {a : Action n} (h : s.step a = some s') {k : ℕ}
    {c : AppendEntriesCall n} (hc : s'.aeCalls[k]? = some c) : AECallStep s a s' k c := by
  obtain ⟨t, hch, hr⟩ := step_changes h
  obtain ⟨hold, hlen⟩ := hch.aeCalls s'
  cases hr with
  | none | wait | requestVote => exact hold k c hc
  | @appendEntries x r hne hl =>
    rcases getElem?_concat_cases hc with hc | ⟨rfl, rfl⟩
    · exact hold k c hc
    · have hx : (t.callAppendEntries x r hne).node x = { t.node x with
          remoteThread := Function.update (t.node x).remoteThread r
            (.appendEntries t.aeCalls.length) } := Function.update_self _ _ _
      have hm : AECallStep s a (t.callAppendEntries x r hne) t.aeCalls.length
          ⟨x, r, hne, ((t.callAppendEntries x r hne).node x).appendEntriesRequest x r,
            ((t.callAppendEntries x r hne).node x).log.memoryLog, .built⟩ :=
        .made hne hlen (by rw [hx]; exact hl)
      rw [hx] at hm
      exact hm

theorem step_rvCalls {s s' : Cluster n} {a : Action n} (h : s.step a = some s') {k : ℕ}
    {c : RequestVoteCall n} (hc : s'.rvCalls[k]? = some c) : RVCallStep s s' k c := by
  obtain ⟨t, hch, hr⟩ := step_changes h
  cases hr with
  | none | wait | appendEntries => exact hch.rvCalls _ hc
  | @requestVote x r hne hl =>
    rcases getElem?_concat_cases hc with hc | ⟨-, rfl⟩
    · exact hch.rvCalls _ hc
    · have hx : (t.callRequestVote x r hne).node x = { t.node x with
          remoteThread := Function.update (t.node x).remoteThread r
            (.requestVote t.rvCalls.length) } := Function.update_self _ _ _
      have hm : RVCallStep s (t.callRequestVote x r hne) k
          ⟨x, r, hne, ((t.callRequestVote x r hne).node x).reqVoteRequest x, .built⟩ :=
        .made hne (by rw [hx]; exact hl)
      rw [hx] at hm
      exact hm

/-- What a call has when it is made, and keeps in every step in any phase, every call has. -/
theorem reach_aeCalls {G : Runs.Guard (Cluster n) (Action n)}
    {P : Cluster n → AppendEntriesCall n → Prop}
    (old : ∀ s a s' c ph, s.step a = some s' → P s c → P s' { c with phase := ph })
    (made : ∀ (s : Cluster n) x r h, (s.node x).currentRole = .kLeader →
      P s ⟨x, r, h, (s.node x).appendEntriesRequest x r, (s.node x).log.memoryLog, .built⟩)
    {s : Cluster n} (h : (cluster n).Reach G s) : ∀ c ∈ s.aeCalls, P s c := by
  refine h.inv (I := fun s => ∀ c ∈ s.aeCalls, P s c) ?_ ?_
  · rintro _ ⟨env, junk, rfl⟩ c hc
    simp [Cluster.init] at hc
  · intro s a s' _ hI _ hst c hc
    obtain ⟨k, hk⟩ := List.mem_iff_getElem?.1 hc
    cases step_aeCalls hst hk with
    | same hc₀ | handled hc₀ => exact old _ _ _ _ _ hst (hI _ (List.mem_of_getElem? hc₀))
    | made hne _ hl => exact made _ _ _ hne hl

/-- A call once made stays, and so does what has happened. -/
structure Keeps (s s' : Cluster n) : Prop where
  aeCalls : ∀ (k : ℕ) (c : AppendEntriesCall n), s.aeCalls[k]? = some c →
    ∃ ph, s'.aeCalls[k]? = some { c with phase := ph }
  history : ∀ ev ∈ s.history, ev ∈ s'.history

theorem Keeps.of_same {s s' : Cluster n} (hc : s'.aeCalls = s.aeCalls)
    (hh : s'.history = s.history) : Keeps s s' :=
  ⟨fun _ c h => ⟨c.phase, hc ▸ h⟩, fun _ h => hh ▸ h⟩

theorem Keeps.trans {s t u : Cluster n} (h : Keeps s t) (h' : Keeps t u) : Keeps s u := by
  refine ⟨fun k c hc => ?_, fun ev hev => h'.history ev (h.history ev hev)⟩
  obtain ⟨_, hc'⟩ := h.aeCalls k c hc
  obtain ⟨ph, hc''⟩ := h'.aeCalls k _ hc'
  exact ⟨ph, hc''⟩

theorem getElem?_setAECall {s : Cluster n} {j k : ℕ} {c d : AppendEntriesCall n}
    {ph : Phase AppendEntriesResponse} (hc : s.aeCalls[j]? = some c) (hd : s.aeCalls[k]? = some d) :
    ∃ ph', (s.aeCalls.set j { c with phase := ph })[k]? = some { d with phase := ph' } := by
  by_cases hjk : j = k
  · subst hjk
    obtain rfl := Option.some.inj (hc.symm.trans hd)
    obtain ⟨hlt, -⟩ := List.getElem?_eq_some_iff.1 hc
    exact ⟨ph, List.getElem?_set_self hlt⟩
  · exact ⟨d.phase, by rw [List.getElem?_set_ne hjk]; exact hd⟩

theorem Change.keeps {s t : Cluster n} {a : Action n} (h : s.Change a t) : Keeps s t := by
  cases h with
  | aeSend hc hp => exact ⟨fun _ _ hd => getElem?_setAECall hc hd, fun _ h => h⟩
  | aeHandle hc hp hap => exact ⟨fun _ _ hd => getElem?_setAECall hc hd, fun _ h => h⟩
  | aeTake | rvTake | fsStep =>
    exact ⟨fun _ c hc => ⟨c.phase, hc⟩, fun _ h => List.mem_append_right _ h⟩
  | _ => exact .of_same rfl rfl

theorem Resume.keeps {t t' : Cluster n} (h : t.Resume t') : Keeps t t' := by
  cases h with
  | appendEntries =>
    refine ⟨fun k c hc => ⟨c.phase, ?_⟩, fun _ h => h⟩
    obtain ⟨hlt, -⟩ := List.getElem?_eq_some_iff.1 hc
    exact (List.getElem?_append_left hlt).trans hc
  | none | wait | requestVote => exact .of_same rfl rfl

theorem step_keeps {s s' : Cluster n} {a : Action n} (h : s.step a = some s') : Keeps s s' := by
  obtain ⟨t, hch, hr⟩ := step_changes h
  exact hch.keeps.trans hr.keeps

theorem keeps_later {G : Runs.Guard (Cluster n) (Action n)} {s t : Cluster n}
    (h : (cluster n).Later G s t) : Keeps s t :=
  h.inv (I := Keeps s) (.of_same rfl rfl) fun _ _ _ hk _ hst => hk.trans (step_keeps hst)

end Cluster

end RaftFS
