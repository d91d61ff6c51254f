import RaftFS.Proofs.Acks
import RaftFS.Proofs.CatchUp

/-!
# What a request brings

A request of a leader whose log is `L` brings a log that has the first `p` entries of `L` to the
first `m` (`Brings`). A follower that handles it has them then and answers with a success
(`onAppendEntries_brought`), and what the leader makes of the answer is its next index, who is on
record for each entry brought, and the commit index (`TakesUp`).
-/

namespace RaftFS

variable {n : ℕ}

open LogManager

namespace Node

variable {nd nd' : Node n} {req : AppendEntriesRequest n} {resp : AppendEntriesResponse}
  {L : List Entry} {p m : ℕ}

/-- The request brings a log that has the first `p` entries of `L` to the first `m`. -/
structure Brings (L : List Entry) (req : AppendEntriesRequest n) (p m : ℕ) : Prop where
  prev : req.prevLogIndex = p
  entries : req.entries = (L.take m).drop p
  le : p ≤ m
  len : m ≤ L.length
  commit : req.leaderCommitIndex ≤ m

theorem Brings.mono {L' : List Entry} (h : Brings L req p m) (hL : L <+: L') :
    Brings L' req p m where
  prev := h.prev
  entries := by
    obtain ⟨l, rfl⟩ := hL
    rw [List.take_append_of_le_length h.len, h.entries]
  le := h.le
  len := h.len.trans hL.length_le
  commit := h.commit

theorem Brings.eq_of_nil (h : Brings L req p m) (he : req.entries = []) : p = m := by
  have hlen := congrArg List.length (h.entries.symm.trans he)
  rw [List.length_drop, List.length_take, List.length_nil] at hlen
  have := h.le
  have := h.len
  omega

theorem Brings.mem_entries (h : Brings L req p m) (hL : Numbered L) {i : ℕ} (hi : p < i)
    (him : i ≤ m) : ∃ e ∈ req.entries, e.index = i := by
  have hlt : i - 1 < L.length := by
    have := h.len
    omega
  refine ⟨L[i - 1], ?_, ?_⟩
  · rw [h.entries]
    refine List.mem_of_getElem? (i := i - 1 - p) ?_
    rw [List.getElem?_drop, List.getElem?_take_of_lt (by omega),
      show p + (i - 1 - p) = i - 1 by omega, List.getElem?_eq_getElem hlt]
  · rw [hL _ _ (List.getElem?_eq_getElem hlt)]
    omega

theorem Brings.length_eq (h : Brings L req p m) : req.prevLogIndex + req.entries.length = m := by
  rw [h.prev, h.entries, List.length_drop, List.length_take_of_le h.len]
  have := h.le
  omega

theorem Brings.index_le (h : Brings L req p m) (hL : Numbered L) {e : Entry}
    (he : e ∈ req.entries) : e.index ≤ L.length := by
  rw [h.entries] at he
  obtain ⟨j, hj⟩ := List.mem_iff_getElem?.1 (List.mem_of_mem_take (List.mem_of_mem_drop he))
  have hlt := (List.getElem?_eq_some_iff.1 hj).1
  rw [hL j e hj]
  omega

theorem Brings.sorted (h : Brings L req p m) (hL : Numbered L) :
    req.entries.Pairwise fun e e' => e.index ≤ e'.index := by
  have hs : L.Pairwise fun e e' => e.index ≤ e'.index := by
    rw [List.pairwise_iff_getElem]
    intro i j hi hj hij
    rw [hL _ _ (List.getElem?_eq_getElem hi), hL _ _ (List.getElem?_eq_getElem hj)]
    omega
  rw [h.entries]
  exact (hs.sublist (List.take_sublist _ _)).sublist (List.drop_sublist _ _)

theorem appendEntriesRequest_brings (self r : Fin n) (hL : Numbered nd.log.memoryLog)
    (hnext : nd.nextIndex r = p + 1) (hp : p ≤ nd.log.memoryLog.length)
    (hc : nd.log.lastCommitedIndex ≤ nd.log.memoryLog.length) :
    Brings nd.log.memoryLog (nd.appendEntriesRequest self r) p nd.log.memoryLog.length where
  prev := by simp only [appendEntriesRequest, hnext, Nat.add_sub_cancel]
  entries := by
    rw [List.take_length, appendEntriesRequest_entries self r hL]
    simp only [appendEntriesRequest, hnext, Nat.add_sub_cancel]
  le := hp
  len := le_rfl
  commit := getLastCommitIndex_le_last.trans hc

theorem followCommit_ge (h : followCommit req nd = some nd')
    (hle : req.leaderCommitIndex ≤ nd.log.getLastLogIndex) :
    req.leaderCommitIndex ≤ nd'.log.getLastCommitIndex := by
  unfold followCommit at h
  split_ifs at h with hlt
  · obtain ⟨log, hlog, rfl⟩ := Option.map_eq_some_iff.1 h
    obtain ⟨hne, hm, hc⟩ := setLastCommitIndex_spec hlog
    rcases hc with ⟨-, hgt⟩ | ⟨hc, -⟩
    · omega
    · have hne' : log.memoryLog ≠ [] := hm ▸ hne
      exact (getLastCommitIndex_of_ne hne').trans hc |>.ge
  · obtain rfl := Option.some.inj h
    exact not_lt.1 hlt

theorem onAppendEntries_commit_ge (h : onAppendEntries req nd = some (nd', resp))
    (ht : nd.currentTerm ≤ req.term) (hle : req.leaderCommitIndex ≤ nd'.log.getLastLogIndex) :
    req.leaderCommitIndex ≤ nd'.log.getLastCommitIndex := by
  unfold onAppendEntries at h
  rw [if_neg (not_lt.2 ht)] at h
  simp only [Option.bind_eq_bind, Option.bind_eq_some_iff] at h
  obtain ⟨⟨log, ok⟩, -, nd₁, hfollow, h⟩ := h
  have hnd : nd' = nd₁ := by
    split_ifs at h
    all_goals exact (Prod.mk.inj (Option.some.inj h)).1.symm
  subst hnd
  refine followCommit_ge hfollow ?_
  obtain ⟨_, _, rfl, hm, -⟩ := followCommit_cases hfollow
  simp only [LogManager.getLastLogIndex, hm] at hle ⊢
  exact hle

/-- A follower in the leader's term that has the first `p` entries is brought to the first `m`. -/
theorem onAppendEntries_brought (h : onAppendEntries req nd = some (nd', resp)) (hL : Numbered L)
    (hb : Brings L req p m) (hterm : req.term = nd.currentTerm)
    (hF : nd.log.memoryLog = L.take p) :
    nd'.log.memoryLog = L.take m ∧ resp.success = true ∧ resp.term = nd.currentTerm ∧
      resp.lastLogIndex = m ∧ req.leaderCommitIndex ≤ nd'.log.getLastCommitIndex := by
  have hp : p ≤ L.length := hb.le.trans hb.len
  have hLm : Numbered (L.take m) := hL.of_isPrefix (List.take_prefix m L)
  have hlen : (L.take m).length = m := List.length_take_of_le hb.len
  have hFn : Numbered nd.log.memoryLog := hF ▸ hL.of_isPrefix (List.take_prefix p L)
  have hFlen : nd.log.memoryLog.length = p := by rw [hF, List.length_take_of_le hp]
  rcases onAppendEntries_cases h with ⟨hlt, -⟩ | ⟨_, _, _, log, log', _, ha, hnd⟩
  · omega
  · have htakes : Takes (L.take m) nd.log.memoryLog p := ⟨hFlen.ge, .inr (.inl hFlen.symm)⟩
    have htaken : taken (L.take m) nd.log.memoryLog p = L.take m := by
      unfold taken
      rw [hlen, hFlen, if_pos rfl]
      split_ifs with h1
      · rw [hF, h1]
      · have htake : (L.take m).take p = L.take p := by rw [List.take_take, min_eq_left hb.le]
        rw [hF, ← htake, List.take_append_drop]
    have hst := ha.stored
    rw [storeEntries_eq hLm hFn (hlen.symm ▸ hb.le) hb.prev hb.entries, if_pos htakes, htaken,
      Option.some.injEq] at hst
    obtain ⟨rfl, hok⟩ := Prod.mk.inj hst
    have hlog : nd'.log.memoryLog = L.take m := by
      rw [hnd]
      exact ha.memoryLog
    have hlast : nd'.log.getLastLogIndex = m := by
      rw [getLastLogIndex_eq (hlog ▸ hLm), hlog, hlen]
    refine ⟨hlog, hok.symm, ha.resp_term, ?_,
      onAppendEntries_commit_ge h hterm.ge (hlast ▸ hb.commit)⟩
    rw [ha.resp_last hok.symm, ← hlast, hnd]

/-- What a leader with the log `L` makes of the answer to such a request, where the next index of
the follower is the one after `p`. -/
structure TakesUp (id : Fin n) (p m : ℕ) (nd nd' : Node n) : Prop where
  memoryLog : nd'.log.memoryLog = nd.log.memoryLog
  nextIndex : nd'.nextIndex = Function.update nd.nextIndex id (m + 1)
  commit : nd'.log.lastCommitedIndex ≤ max nd.log.lastCommitedIndex nd.log.memoryLog.length
  pending : ∀ i, p < i → i ≤ m → nd.log.getLastCommitIndex < i → id ∈ nd'.pendingEntries i
  quorum : ∀ i, p < i → i ≤ m → nd.log.getLastCommitIndex < i →
    IsQuorum (insert id (nd.pendingEntries i)) → i ≤ nd'.log.getLastCommitIndex

theorem onAppendEntriesResponse_takesUp {id : Fin n} {commit : Option ℕ} {next : Next}
    (h : onAppendEntriesResponse id req resp nd = some (nd', commit, next))
    (hL : Numbered nd.log.memoryLog) (hb : Brings nd.log.memoryLog req p m)
    (hterm : resp.term = nd.currentTerm) (hok : resp.success = true)
    (hlast : resp.lastLogIndex = m) (hnext : nd.nextIndex id = p + 1) :
    TakesUp id p m nd nd' := by
  by_cases he : req.entries = []
  · obtain rfl := hb.eq_of_nil he
    rw [onAppendEntriesResponse, if_pos hterm, hok, if_pos rfl, if_pos (List.isEmpty_iff.2 he)] at h
    simp only [Option.some.injEq, Prod.mk.injEq] at h
    obtain ⟨rfl, -, -⟩ := h
    refine ⟨rfl, ?_, le_max_left _ _, fun i h1 h2 => ?_, fun i h1 h2 => ?_⟩
    · rw [← hnext, Function.update_eq_self]
    · omega
    · omega
  · have hin : ∀ e ∈ req.entries, e.index ≤ nd.log.getLastLogIndex := by
      rw [getLastLogIndex_eq hL]
      exact fun e he => hb.index_le hL he
    obtain ⟨log, fs, commit', hrec, hm, hc⟩ := recordAck_counts id resp hin
    rw [onAppendEntriesResponse_success id hterm hok he, hrec, Option.map_some] at h
    simp only [Option.some.injEq, Prod.mk.injEq] at h
    obtain ⟨rfl, -, -⟩ := h
    refine ⟨hm, by rw [hlast], ?_, fun i h1 h2 hlt => ?_, fun i h1 h2 hlt hq => ?_⟩
    · obtain ⟨_, log', _, hnd, -, -, hset⟩ := recordAck_cases hrec
      obtain rfl : log = log' := congrArg Node.log hnd
      rcases hset with ⟨-, rfl⟩ | ⟨e, -, -, hset, hle⟩
      · exact le_max_left _ _
      · rw [getLastLogIndex_eq hL] at hle
        exact hset.le.trans (le_max_of_le_right hle)
    · obtain ⟨e, hemem, rfl⟩ := hb.mem_entries hL h1 h2
      simp only [countAcks_pending, hlt, true_and]
      rw [if_pos ⟨e, hemem, rfl⟩]
      exact Finset.mem_insert_self _ _
    · obtain ⟨e, hemem, rfl⟩ := hb.mem_entries hL h1 h2
      simp only [hc]
      exact ((countAcks_le_iff (hb.sorted hL) _).1 le_rfl).2 e hemem hlt hq

end Node

end RaftFS
