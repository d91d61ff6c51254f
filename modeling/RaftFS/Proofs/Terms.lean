import RaftFS.Proofs.Leadership

/-!
# Where terms come from

A node comes into a term by an election of its own or by a message that carries it
(`step_currentTerm`), so a term that no node was in and no message carried comes of an election only
(`step_seen`). What a message carries some node has reached (`reach_carries`), and only an election
raises the highest term in the cluster (`step_term_le`).
-/

namespace RaftFS

variable {n : ℕ}

namespace Cluster

variable {s s' t : Cluster n} {a : Action n}

/-- A request or a response that has been made has the term. -/
def Carries (s : Cluster n) (T : ℕ) : Prop :=
  (∃ c ∈ s.aeCalls, c.req.term = T ∨ ∃ resp ∈ c.phase.resp?, resp.term = T) ∨
    ∃ c ∈ s.rvCalls, c.req.term = T ∨ ∃ resp ∈ c.phase.resp?, resp.term = T

/-- A node is in the term, or a message carries it. -/
def Seen (s : Cluster n) (T : ℕ) : Prop := (∃ x, (s.node x).currentTerm = T) ∨ s.Carries T

/-- Where the term of a node may come from in an action. -/
def TermStep (s : Cluster n) (a : Action n) (x : Fin n) (T : ℕ) : Prop :=
  T = (s.node x).currentTerm ∨ (a = .leaderTimeout x ∧ T = (s.node x).currentTerm + 1) ∨ s.Carries T

theorem TermStep.update {y : Fin n} {nd : Node n} (h : TermStep s a y nd.currentTerm) (x : Fin n) :
    TermStep s a x (Function.update s.node y nd x).currentTerm :=
  forall_update (P := fun x nd => TermStep s a x nd.currentTerm) (fun _ => .inl rfl) h x

theorem Change.currentTerm (h : s.Change a t) (x : Fin n) :
    TermStep s a x (t.node x).currentTerm := by
  cases h with
  | wake | aeSend | aeFail | rvSend | rvFail => exact .inl rfl
  | @timeout y _ =>
    exact TermStep.update (.inr (.inl ⟨rfl, ((s.node y).startLeaderElection_office y).1⟩)) x
  | aeHandle hc hp h =>
    refine TermStep.update ?_ x
    rcases Node.onAppendEntries_cases h with ⟨-, rfl, -⟩ | ⟨_, _, _, _, _, _, _, rfl⟩
    · exact .inl rfl
    · exact .inr (.inr (.inl ⟨_, List.mem_of_getElem? hc, .inl rfl⟩))
  | aeTake hc ha h =>
    refine TermStep.update ?_ x
    rcases Node.onAppendEntriesResponse_cases h with ⟨-, -, -, hr⟩ | ⟨hlt, -, rfl⟩ | ⟨-, _, rfl, -⟩
    · obtain ⟨_, _, _, rfl, -⟩ := Node.recordAck_cases hr
      exact .inl rfl
    · rcases ha with ⟨-, hp⟩ | ⟨-, rfl⟩
      · exact .inr (.inr (.inl ⟨_, List.mem_of_getElem? hc, .inr ⟨_, by rw [hp]; rfl, rfl⟩⟩))
      · exact absurd hlt (Nat.not_lt_zero _)
    · exact .inl rfl
  | @rvHandle k c hc hp =>
    refine TermStep.update ?_ x
    obtain ⟨_, _, _, _, he, -⟩ := (s.node c.dst).onRequestVote_cases c.req
    rw [he]
    rcases le_total c.req.term (s.node c.dst).currentTerm with hle | hle
    · exact .inl (max_eq_left hle)
    · refine .inr (.inr (.inr ⟨c, List.mem_of_getElem? hc, .inl ?_⟩))
      exact (max_eq_right hle).symm
  | @rvTake _ k c resp nd won next hc ha h =>
    refine TermStep.update ?_ x
    obtain ⟨_, _, _, _, _, _, he, -⟩ := Node.onRequestVoteResponse_cases c.src c.dst resp
      (s.node c.src)
    rw [h] at he
    obtain ⟨rfl, -, -⟩ := he
    exact .inl rfl
  | clientRequest | fsWake =>
    refine TermStep.update ?_ x
    exact .inl rfl
  | clientStep h =>
    obtain ⟨_, _, _, -, -, rfl⟩ := Node.onMetaOperation_cases h
    refine TermStep.update ?_ x
    exact .inl rfl
  | fsStep h =>
    obtain ⟨_, _, _, rfl, -⟩ := Node.fsUpdateLoop_cases h
    refine TermStep.update ?_ x
    exact .inl rfl

/-- A node's term after a step is the one before, the next one by an election, or a message's. -/
theorem step_currentTerm (h : s.step a = some s') (x : Fin n) :
    TermStep s a x (s'.node x).currentTerm := by
  obtain ⟨t, hc, hr⟩ := step_changes h
  obtain ⟨f, hf⟩ := hr.node x
  rw [hf]
  exact hc.currentTerm x

theorem Office.term_le {x : Fin n} {nd : Node n} {history : List (Event n)}
    (h : Office s a x nd history) : (s.node x).currentTerm ≤ nd.currentTerm := by
  cases h with
  | keep ht | win _ ht | learn _ _ _ _ ht => exact ht.ge
  | stand _ ht => omega
  | stepDown _ ht => exact ht.le
  | defer _ _ hd ht =>
    rcases hd with hlt | ⟨-, heq⟩
    · omega
    · omega

/-- What a message carries after a step was seen before it, or a node is in it then. -/
theorem step_carries (h : s.step a = some s') {T : ℕ} (hT : s'.Carries T) :
    s.Seen T ∨ ∃ x, (s'.node x).currentTerm = T := by
  rcases hT with ⟨c, hc, hT⟩ | ⟨c, hc, hT⟩
  · obtain ⟨k, hk⟩ := List.mem_iff_getElem?.1 hc
    cases step_aeCalls h hk with
    | same hc₀ hp =>
      refine .inl (.inr (.inl ⟨_, List.mem_of_getElem? hc₀, ?_⟩))
      simpa only [hp] using hT
    | @handled c₀ nd resp hc₀ _ hap =>
      rcases hT with hT | ⟨_, hr, rfl⟩
      · exact .inl (.inr (.inl ⟨_, List.mem_of_getElem? hc₀, .inl hT⟩))
      · obtain rfl := Option.some.inj hr
        refine .inl (.inl ⟨c₀.dst, ?_⟩)
        rcases Node.onAppendEntries_cases hap with ⟨-, -, rfl⟩ | ⟨_, _, _, _, _, _, ha, -⟩
        · rfl
        · exact ha.resp_term.symm
    | @made x =>
      rcases hT with hT | ⟨_, hr, -⟩
      · exact .inr ⟨x, hT⟩
      · simp [Phase.resp?] at hr
  · obtain ⟨k, hk⟩ := List.mem_iff_getElem?.1 hc
    cases step_rvCalls h hk with
    | same hc₀ hp =>
      refine .inl (.inr (.inr ⟨_, List.mem_of_getElem? hc₀, ?_⟩))
      simpa only [hp] using hT
    | @handled c₀ hc₀ =>
      rcases hT with hT | ⟨_, hr, rfl⟩
      · exact .inl (.inr (.inr ⟨_, List.mem_of_getElem? hc₀, .inl hT⟩))
      · obtain rfl := Option.some.inj hr
        obtain ⟨_, _, _, _, he, -⟩ := (s.node c₀.dst).onRequestVote_cases c₀.req
        have ht : ((s.node c₀.dst).onRequestVote c₀.req).2.term =
            max (s.node c₀.dst).currentTerm c₀.req.term := by
          rw [Node.onRequestVote_term, he]
        rcases le_total c₀.req.term (s.node c₀.dst).currentTerm with hle | hle
        · exact .inl (.inl ⟨c₀.dst, (ht.trans (max_eq_left hle)).symm⟩)
        · exact .inl (.inr (.inr ⟨c₀, List.mem_of_getElem? hc₀,
            .inl (ht.trans (max_eq_right hle)).symm⟩))
    | @made x =>
      rcases hT with hT | ⟨_, hr, -⟩
      · exact .inr ⟨x, hT⟩
      · simp [Phase.resp?] at hr

/-- A term seen after a step was seen before it, or it is the one a node called an election for. -/
theorem step_seen (h : s.step a = some s') {T : ℕ} (hT : s'.Seen T) :
    s.Seen T ∨ ∃ x, a = .leaderTimeout x ∧ T = (s.node x).currentTerm + 1 := by
  have hnode : ∀ x, s.Seen (s'.node x).currentTerm ∨
      ∃ y, a = .leaderTimeout y ∧ (s'.node x).currentTerm = (s.node y).currentTerm + 1 := by
    intro x
    rcases step_currentTerm h x with he | ⟨ha, ht⟩ | hc
    · exact .inl (.inl ⟨x, he.symm⟩)
    · exact .inr ⟨x, ha, ht⟩
    · exact .inl (.inr hc)
  rcases hT with ⟨x, rfl⟩ | hT
  · exact hnode x
  · rcases step_carries h hT with hT | ⟨x, rfl⟩
    · exact .inl hT
    · exact hnode x

/-- The term that a message carries has been reached by a node. -/
theorem reach_carries {G : Runs.Guard (Cluster n) (Action n)} (h : (cluster n).Reach G s) :
    ∀ T, s.Carries T → ∃ x, T ≤ (s.node x).currentTerm := by
  refine h.inv (I := fun s => ∀ T, s.Carries T → ∃ x, T ≤ (s.node x).currentTerm) ?_ ?_
  · rintro _ ⟨env, junk, rfl⟩ T (⟨c, hc, -⟩ | ⟨c, hc, -⟩)
    · simp [Cluster.init] at hc
    · simp [Cluster.init] at hc
  · intro s a s' _ hI _ hst T hT
    have hmono : ∀ x, (s.node x).currentTerm ≤ (s'.node x).currentTerm :=
      fun x => (step_office hst x).term_le
    rcases step_carries hst hT with (⟨x, rfl⟩ | hT) | ⟨x, rfl⟩
    · exact ⟨x, hmono x⟩
    · obtain ⟨x, hx⟩ := hI T hT
      exact ⟨x, hx.trans (hmono x)⟩
    · exact ⟨x, le_rfl⟩

/-- Where no term is past `B`, a step that is no election takes none past it. -/
theorem step_term_le {G : Runs.Guard (Cluster n) (Action n)} (hs : (cluster n).Reach G s) {B : ℕ}
    (hB : ∀ x, (s.node x).currentTerm ≤ B) (h : s.step a = some s')
    (ha : ∀ x, a ≠ .leaderTimeout x) (x : Fin n) : (s'.node x).currentTerm ≤ B := by
  rcases step_currentTerm h x with he | ⟨ha', -⟩ | hc
  · exact he ▸ hB x
  · exact absurd ha' (ha x)
  · obtain ⟨y, hy⟩ := reach_carries hs _ hc
    exact hy.trans (hB y)

end Cluster

end RaftFS
