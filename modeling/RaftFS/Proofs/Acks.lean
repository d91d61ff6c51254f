import RaftFS.Proofs.Node
import Mathlib.Data.Finset.Lattice.Fold
import Mathlib.Data.List.Pairwise
import Mathlib.Order.Lattice.Nat

/-!
# Acknowledgements

What the acknowledgement loop of a leader counts, and that the order in which acknowledgements come
in makes no difference to the commit index (`ack_order`). Entries that are committed when an
acknowledgement comes in are skipped and not recorded, so who is on record for an index depends on
the order; above the commit index it does not.
-/

namespace RaftFS

variable {n : ℕ}

namespace Node

variable {nd nd₀ nd' : Node n}

section Loop

variable {id : Fin n}

theorem countAcks_pending (id : Fin n) (commitIndex : ℕ) : ∀ (es : List Entry)
    (pending : ℕ → Finset (Fin n)) (newCommit i : ℕ),
    (countAcks id commitIndex es pending newCommit).1 i =
      if commitIndex < i ∧ ∃ e ∈ es, e.index = i then insert id (pending i) else pending i
  | [], pending, newCommit, i => by simp [countAcks]
  | e :: es, pending, newCommit, i => by
    by_cases h : e.index ≤ commitIndex
    · have hne : commitIndex < i → e.index ≠ i := by omega
      have hiff : (commitIndex < i ∧ ∃ e' ∈ e :: es, e'.index = i) ↔
          commitIndex < i ∧ ∃ e' ∈ es, e'.index = i := by
        refine and_congr_right fun hi => ?_
        simp [hne hi]
      simp only [countAcks, if_pos h, countAcks_pending id commitIndex es, hiff]
    · simp only [countAcks, if_neg h, countAcks_pending id commitIndex es]
      rw [not_le] at h
      by_cases hi : i = e.index
      · subst hi
        simp [h]
      · simp [Function.update_of_ne hi, Ne.symm hi]

theorem subset_countAcks (id : Fin n) (commitIndex : ℕ) (es : List Entry)
    (pending : ℕ → Finset (Fin n)) (newCommit i : ℕ) :
    pending i ⊆ (countAcks id commitIndex es pending newCommit).1 i := by
  rw [countAcks_pending]
  split_ifs
  · exact Finset.subset_insert _ _
  · exact Finset.Subset.refl _

theorem recordAck_pending {req : AppendEntriesRequest n} {resp : AppendEntriesResponse}
    {commit : Option ℕ} (h : recordAck id req resp nd = some (nd', commit)) :
    nd'.pendingEntries = (countAcks id nd.log.getLastCommitIndex req.entries nd.pendingEntries
      nd.log.getLastCommitIndex).1 := by
  unfold recordAck at h
  by_cases hN : nd.log.getLastCommitIndex = (countAcks id nd.log.getLastCommitIndex req.entries
      nd.pendingEntries nd.log.getLastCommitIndex).2
  · simp only [resetNextIndex, ne_eq, ← hN, not_true_eq_false, if_false] at h
    rw [← (Prod.mk.inj (Option.some.inj h)).1]
  · simp only [resetNextIndex, ne_eq, hN, not_false_eq_true, if_true] at h
    obtain ⟨_, -, h⟩ := Option.map_eq_some_iff.1 h
    rw [← (Prod.mk.inj h).1]
    rfl

/-- The new commit index is the largest there is to take, of entries in ascending order. -/
theorem countAcks_le_iff {commitIndex m : ℕ} {es : List Entry}
    (hs : es.Pairwise fun e e' => e.index ≤ e'.index) (pending : ℕ → Finset (Fin n)) :
    (countAcks id commitIndex es pending commitIndex).2 ≤ m ↔ commitIndex ≤ m ∧
      ∀ e ∈ es, commitIndex < e.index → quorumSize n ≤ (insert id (pending e.index)).card →
        e.index ≤ m := by
  rw [countAcks_commit]
  generalize hF : (es.filter fun e => commitIndex < e.index ∧
    quorumSize n ≤ (insert id (pending e.index)).card) = F
  have hmem : ∀ e, e ∈ F ↔ e ∈ es ∧ commitIndex < e.index ∧
      quorumSize n ≤ (insert id (pending e.index)).card := by
    intro e
    rw [← hF, List.mem_filter, decide_eq_true_eq]
  have hsF : F.Pairwise fun e e' => e.index ≤ e'.index := hF ▸ hs.filter _
  rcases hl : F.getLast? with _ | last
  · have hnil := List.getLast?_eq_none_iff.1 hl
    simp only [Option.map_none, Option.getD_none]
    refine ⟨fun h => ⟨h, fun e he hlt hq => ?_⟩, And.left⟩
    have := (hmem e).2 ⟨he, hlt, hq⟩
    rw [hnil] at this
    cases this
  · have hlast := (hmem last).1 (List.mem_of_getLast? hl)
    have hle : ∀ e ∈ F, e.index ≤ last.index := by
      intro e he
      have hrefl : Std.Refl fun e e' : Entry => e.index ≤ e'.index := ⟨fun _ => le_rfl⟩
      have hrel := hsF.rel_getLast he
      rwa [← Option.some.inj ((List.getLast?_eq_getLast_of_ne_nil _).symm.trans hl)]
    simp only [Option.map_some, Option.getD_some]
    refine ⟨fun h => ⟨by omega, fun e he hlt hq => ?_⟩, fun h => ?_⟩
    · exact (hle e ((hmem e).2 ⟨he, hlt, hq⟩)).trans h
    · exact h.2 last hlast.1 hlast.2.1 hlast.2.2

theorem countAcks_brought (id : Fin n) (req : AppendEntriesRequest n) (nd : Node n) :
    (countAcks id nd.log.getLastCommitIndex req.entries nd.pendingEntries
      nd.log.getLastCommitIndex).2 =
        ((broughtToQuorum id req nd).getLast?.map (·.index)).getD nd.log.getLastCommitIndex :=
  countAcks_commit _ _ _ _ _

theorem countAcks_mem (id : Fin n) (commitIndex : ℕ) (es : List Entry)
    (pending : ℕ → Finset (Fin n)) :
    (countAcks id commitIndex es pending commitIndex).2 = commitIndex ∨
      ∃ e ∈ es, commitIndex < e.index ∧
        (countAcks id commitIndex es pending commitIndex).2 = e.index := by
  rw [countAcks_commit]
  rcases hl : List.getLast? _ with _ | last
  · exact .inl rfl
  · obtain ⟨hm, hp⟩ := List.mem_filter.1 (List.mem_of_getLast? hl)
    simp only [decide_eq_true_eq] at hp
    exact .inr ⟨last, hm, hp.1, rfl⟩

/-- An acknowledgement recorded: the next index, who is on record, and the commit index where it is
not past the log's end. -/
theorem recordAck_eq (id : Fin n) (req : AppendEntriesRequest n) (resp : AppendEntriesResponse)
    {N : ℕ}
    (hN : (countAcks id nd.log.getLastCommitIndex req.entries nd.pendingEntries
      nd.log.getLastCommitIndex).2 = N)
    (hne : nd.log.memoryLog ≠ [] ∨ N = nd.log.getLastCommitIndex) :
    ∃ log fs commit, recordAck id req resp nd = some ({ nd with
        nextIndex := Function.update nd.nextIndex id (resp.lastLogIndex + 1)
        pendingEntries := (countAcks id nd.log.getLastCommitIndex req.entries nd.pendingEntries
          nd.log.getLastCommitIndex).1
        log := log, fsThread := fs }, commit) ∧
      log.memoryLog = nd.log.memoryLog ∧
      (N = nd.log.getLastCommitIndex ∨ N ≤ nd.log.getLastLogIndex →
        log.getLastCommitIndex = N) := by
  simp only [recordAck, resetNextIndex, hN]
  by_cases h : nd.log.getLastCommitIndex = N
  · rw [if_neg (not_not.2 h)]
    exact ⟨_, _, _, rfl, rfl, fun _ => h⟩
  · have hne := hne.resolve_right (Ne.symm h)
    rcases hl : nd.log.memoryLog.getLast? with _ | back
    · exact absurd (List.getLast?_eq_none_iff.1 hl) hne
    · have hback : nd.log.getLastLogIndex = back.index := by simp [LogManager.getLastLogIndex, hl]
      simp only [ne_eq, h, not_false_eq_true, if_true, LogManager.setLastCommitIndex, hl,
        Option.map_some, hback]
      refine ⟨_, _, _, rfl, by split_ifs <;> rfl, fun hle => ?_⟩
      simp only [if_pos (hle.resolve_left (Ne.symm h))]
      exact LogManager.getLastCommitIndex_of_ne hne

theorem onAppendEntriesResponse_success (id : Fin n) {req : AppendEntriesRequest n}
    {resp : AppendEntriesResponse} (ht : resp.term = nd.currentTerm) (hs : resp.success = true)
    (he : req.entries ≠ []) : onAppendEntriesResponse id req resp nd =
      (recordAck id req resp nd).map fun r => (r.1, r.2, .wait) := by
  rw [onAppendEntriesResponse, if_pos ht, hs, if_pos rfl,
    if_neg (fun h0 => he (List.isEmpty_iff.1 h0))]

/-- An acknowledgement of entries within the log sets the commit index it comes to. -/
theorem recordAck_counts (id : Fin n) {req : AppendEntriesRequest n} (resp : AppendEntriesResponse)
    (hin : ∀ e ∈ req.entries, e.index ≤ nd.log.getLastLogIndex) :
    ∃ log fs commit, recordAck id req resp nd = some ({ nd with
        nextIndex := Function.update nd.nextIndex id (resp.lastLogIndex + 1)
        pendingEntries := (countAcks id nd.log.getLastCommitIndex req.entries nd.pendingEntries
          nd.log.getLastCommitIndex).1
        log := log, fsThread := fs }, commit) ∧
      log.memoryLog = nd.log.memoryLog ∧
      log.getLastCommitIndex = (countAcks id nd.log.getLastCommitIndex req.entries
        nd.pendingEntries nd.log.getLastCommitIndex).2 := by
  rcases countAcks_mem id nd.log.getLastCommitIndex req.entries nd.pendingEntries with
    h | ⟨e, he, hlt, h⟩
  · obtain ⟨log, fs, commit, hr, hm, hc⟩ := recordAck_eq id req resp rfl (.inr h)
    exact ⟨log, fs, commit, hr, hm, hc (.inl h)⟩
  · have hle := hin e he
    have hne : nd.log.memoryLog ≠ [] := by
      intro h0
      simp only [LogManager.getLastLogIndex, h0, List.getLast?_nil, Option.map_none,
        Option.getD_none] at hle
      omega
    obtain ⟨log, fs, commit, hr, hm, hc⟩ := recordAck_eq id req resp rfl (.inl hne)
    exact ⟨log, fs, commit, hr, hm, hc (.inr (h ▸ hle))⟩

end Loop

section Order

/-- An acknowledgement: the remote, the request it answers and its response. -/
structure Ack (n : ℕ) where
  id : Fin n
  req : AppendEntriesRequest n
  resp : AppendEntriesResponse

/-- A success that does not take the leader's term away, for entries in ascending order within the
leader's log. -/
structure Ack.Within (nd : Node n) (a : Ack n) : Prop where
  success : a.resp.success = true
  term : a.resp.term ≤ nd.currentTerm
  ascending : a.req.entries.Pairwise fun e e' => e.index ≤ e'.index
  inLog : ∀ e ∈ a.req.entries, e.index ≤ nd.log.getLastLogIndex

/-- The leader takes up the responses one after the other. -/
def takeAcks : List (Ack n) → Node n → Option (Node n)
  | [], nd => some nd
  | a :: acks, nd => (onAppendEntriesResponse a.id a.req a.resp nd).bind fun (nd, _) =>
    takeAcks acks nd

/-- The indices acknowledged to a leader of the term `T`. The leader takes a response of an earlier
term for no acknowledgement. -/
def Ack.indices (T : ℕ) (a : Ack n) : List ℕ :=
  if a.resp.term = T then a.req.entries.map (·.index) else []

/-- The ids on record for the index `i`, and those that acknowledge it now. -/
def ackers (nd : Node n) (acks : List (Ack n)) (i : ℕ) : Finset (Fin n) :=
  nd.pendingEntries i ∪ ((acks.filter fun a => i ∈ a.indices nd.currentTerm).map (·.id)).toFinset

/-- The indices acknowledged that a quorum has acknowledged, old and new together. -/
def quorumIndices (nd : Node n) (acks : List (Ack n)) : Finset ℕ :=
  (acks.flatMap (·.indices nd.currentTerm)).toFinset.filter fun i =>
    quorumSize n ≤ (ackers nd acks i).card

/-- The larger of the old commit index and the greatest index that a quorum has acknowledged. -/
def committedBy (nd : Node n) (acks : List (Ack n)) : ℕ :=
  max nd.log.getLastCommitIndex ((quorumIndices nd acks).sup id)

variable {acks acks' : List (Ack n)} {a : Ack n} {i m : ℕ}

theorem mem_ackers {x : Fin n} : x ∈ ackers nd acks i ↔
    x ∈ nd.pendingEntries i ∨ ∃ a ∈ acks, i ∈ a.indices nd.currentTerm ∧ a.id = x := by
  simp [ackers, and_assoc]

theorem mem_quorumIndices : i ∈ quorumIndices nd acks ↔
    (∃ a ∈ acks, i ∈ a.indices nd.currentTerm) ∧ quorumSize n ≤ (ackers nd acks i).card := by
  simp [quorumIndices]

theorem ackers_cons : ackers nd (a :: acks) i =
    if i ∈ a.indices nd.currentTerm then insert a.id (ackers nd acks i) else ackers nd acks i := by
  ext x
  rw [mem_ackers]
  split_ifs with hi
  · rw [Finset.mem_insert, mem_ackers]
    simp only [List.mem_cons, exists_eq_or_imp, hi, true_and]
    tauto
  · rw [mem_ackers]
    simp [hi]

theorem committedBy_le_iff : committedBy nd acks ≤ m ↔
    nd.log.getLastCommitIndex ≤ m ∧ ∀ i ∈ quorumIndices nd acks, i ≤ m := by
  simp [committedBy]

theorem ackers_perm (h : acks.Perm acks') (i : ℕ) : ackers nd acks i = ackers nd acks' i := by
  ext x
  simp only [mem_ackers, h.mem_iff]

theorem committedBy_perm (h : acks.Perm acks') : committedBy nd acks = committedBy nd acks' := by
  have hq : quorumIndices nd acks = quorumIndices nd acks' := by
    ext i
    simp only [mem_quorumIndices, ackers_perm h, h.mem_iff]
  rw [committedBy, hq, committedBy]

/-- What the leader `nd₀` has come to when it has taken up `acks`. Above the commit index all who
have acknowledged are on record. -/
structure Taken (nd₀ nd : Node n) (acks : List (Ack n)) : Prop where
  memoryLog : nd.log.memoryLog = nd₀.log.memoryLog
  currentTerm : nd.currentTerm = nd₀.currentTerm
  currentRole : nd.currentRole = nd₀.currentRole
  commit : nd.log.getLastCommitIndex = committedBy nd₀ acks
  pending : ∀ i, committedBy nd₀ acks < i → nd.pendingEntries i = ackers nd₀ acks i

theorem Taken.start (nd : Node n) : Taken nd nd [] :=
  ⟨rfl, rfl, rfl, by simp [committedBy, quorumIndices], fun i _ => by simp [ackers]⟩

theorem Taken.skip (h : Taken nd₀ nd acks) (ha : a.indices nd₀.currentTerm = []) :
    Taken nd₀ nd (a :: acks) := by
  have hack : ∀ i, ackers nd₀ (a :: acks) i = ackers nd₀ acks i := by
    intro i
    rw [ackers_cons, if_neg (by simp [ha])]
  have hq : quorumIndices nd₀ (a :: acks) = quorumIndices nd₀ acks := by
    ext i
    simp only [mem_quorumIndices, hack, List.mem_cons, exists_eq_or_imp, ha, List.not_mem_nil,
      false_or]
  have hc : committedBy nd₀ (a :: acks) = committedBy nd₀ acks := by
    rw [committedBy, hq, committedBy]
  exact ⟨h.memoryLog, h.currentTerm, h.currentRole, hc ▸ h.commit,
    fun i hi => (h.pending i (hc ▸ hi)).trans (hack i).symm⟩

theorem Ack.indices_eq (a : Ack n) : a.indices a.resp.term = a.req.entries.map (·.index) := by
  simp [Ack.indices]

theorem quorumIndices_subset : quorumIndices nd acks ⊆ quorumIndices nd (a :: acks) := by
  intro i hi
  rw [mem_quorumIndices] at hi ⊢
  obtain ⟨⟨b, hb, hib⟩, hq⟩ := hi
  refine ⟨⟨b, List.mem_cons_of_mem _ hb, hib⟩, hq.trans (Finset.card_le_card fun x hx => ?_)⟩
  rw [mem_ackers] at hx ⊢
  exact hx.imp_right fun ⟨c, hc, h⟩ => ⟨c, List.mem_cons_of_mem _ hc, h⟩

/-- The new commit index after an acknowledgement is the one a quorum has acknowledged by then. -/
theorem Taken.newCommit (h : Taken nd₀ nd acks) (ha : a.Within nd₀)
    (ht : a.resp.term = nd₀.currentTerm) :
    (countAcks a.id nd.log.getLastCommitIndex a.req.entries nd.pendingEntries
      nd.log.getLastCommitIndex).2 = committedBy nd₀ (a :: acks) := by
  have hindices : a.indices nd₀.currentTerm = a.req.entries.map (·.index) := ht ▸ a.indices_eq
  refine eq_of_forall_ge_iff fun m => ?_
  rw [countAcks_le_iff ha.ascending, h.commit]
  refine Iff.trans ?_ committedBy_le_iff.symm
  constructor
  · rintro ⟨hle, hnew⟩
    refine ⟨(committedBy_le_iff.1 hle).1, fun i hi => ?_⟩
    rcases le_or_gt i (committedBy nd₀ acks) with hic | hic
    · exact hic.trans hle
    · rw [mem_quorumIndices, ackers_cons] at hi
      obtain ⟨⟨b, hb, hib⟩, hq⟩ := hi
      split_ifs at hq with hia
      · rw [hindices] at hia
        obtain ⟨e, he, rfl⟩ := List.mem_map.1 hia
        exact hnew e he hic (by rwa [h.pending _ hic])
      · -- an index that is not acknowledged now had its quorum before
        have hb : b ∈ acks := (List.mem_cons.1 hb).resolve_left fun h0 => hia (h0 ▸ hib)
        exact ((committedBy_le_iff.1 hle).2 i (mem_quorumIndices.2 ⟨⟨b, hb, hib⟩, hq⟩))
  · rintro ⟨hle, hnew⟩
    refine ⟨committedBy_le_iff.2 ⟨hle, fun i hi => hnew i (quorumIndices_subset hi)⟩,
      fun e he hic hq => hnew _ ?_⟩
    have hia : e.index ∈ a.indices nd₀.currentTerm := hindices ▸ List.mem_map_of_mem he
    rw [mem_quorumIndices, ackers_cons, if_pos hia, ← h.pending _ hic]
    exact ⟨⟨a, List.mem_cons_self, hia⟩, hq⟩

/-- A leader that has counted acknowledgements takes up one more. -/
theorem Taken.take (h : Taken nd₀ nd acks) (ha : a.Within nd₀) :
    ∃ nd' r, onAppendEntriesResponse a.id a.req a.resp nd = some (nd', r) ∧
      Taken nd₀ nd' (a :: acks) := by
  by_cases ht : a.resp.term = nd₀.currentTerm
  · have hindices : a.indices nd₀.currentTerm = a.req.entries.map (·.index) := ht ▸ a.indices_eq
    by_cases he : a.req.entries = []
    · rw [onAppendEntriesResponse, ha.success, h.currentTerm, if_pos ht, if_pos rfl,
        if_pos (List.isEmpty_iff.2 he)]
      exact ⟨nd, _, rfl, h.skip (by rw [hindices, he]; rfl)⟩
    · have hin : ∀ e ∈ a.req.entries, e.index ≤ nd.log.getLastLogIndex := by
        rw [LogManager.getLastLogIndex, h.memoryLog]
        exact ha.inLog
      obtain ⟨log, fs, commit, hr, hm, hc⟩ := recordAck_counts a.id a.resp hin
      rw [onAppendEntriesResponse_success a.id (ht.trans h.currentTerm.symm) ha.success he, hr]
      refine ⟨_, _, rfl, ?_⟩
      exact {
        memoryLog := hm.trans h.memoryLog
        currentTerm := h.currentTerm
        currentRole := h.currentRole
        commit := hc.trans (h.newCommit ha ht)
        pending := by
          intro i hi
          have hold : committedBy nd₀ acks < i := by
            have hmono : committedBy nd₀ acks ≤ committedBy nd₀ (a :: acks) := by
              have hle := committedBy_le_iff.1 (le_refl (committedBy nd₀ (a :: acks)))
              exact committedBy_le_iff.2 ⟨hle.1, fun i hi => hle.2 i (quorumIndices_subset hi)⟩
            exact hmono.trans_lt hi
          simp only [countAcks_pending, h.commit, hold, true_and, h.pending i hold, ackers_cons,
            hindices, List.mem_map] }
  · have hlt := ha.term
    rw [onAppendEntriesResponse, h.currentTerm, if_neg ht, if_neg (by omega)]
    exact ⟨nd, _, rfl, h.skip (if_neg ht)⟩

theorem Taken.takeAcks : ∀ (l : List (Ack n)) {nd : Node n} {acks : List (Ack n)},
    (∀ a ∈ l, a.Within nd₀) → Taken nd₀ nd acks →
      ∃ nd', Node.takeAcks l nd = some nd' ∧ Taken nd₀ nd' (l.reverse ++ acks)
  | [], nd, acks, _, h => ⟨nd, rfl, h⟩
  | a :: l, nd, acks, hl, h => by
    obtain ⟨nd', r, hr, hc⟩ := h.take (hl a List.mem_cons_self)
    obtain ⟨nd'', hr', hc'⟩ := Taken.takeAcks l (fun b hb => hl b (List.mem_cons_of_mem _ hb)) hc
    refine ⟨nd'', by rw [Node.takeAcks, hr]; exact hr', ?_⟩
    rw [List.reverse_cons, List.append_assoc]
    exact hc'

end Order

/-- In whatever order a leader takes up success responses, its log, term and role stay the same and
its commit index becomes the larger of the old one and the greatest index acknowledged that a
quorum has acknowledged, old and new together. -/
theorem ack_order {nd : Node n} {acks : List (Ack n)} (h : ∀ a ∈ acks, a.Within nd) :
    ∀ order, acks.Perm order → ∃ nd', takeAcks order nd = some nd' ∧
      nd'.log.memoryLog = nd.log.memoryLog ∧ nd'.currentTerm = nd.currentTerm ∧
      nd'.currentRole = nd.currentRole ∧
      nd'.log.getLastCommitIndex =
        max nd.log.getLastCommitIndex ((quorumIndices nd acks).sup id) := by
  intro order hp
  obtain ⟨nd', hr, hc⟩ := Taken.takeAcks order (fun a ha => h a (hp.mem_iff.2 ha)) (.start nd)
  refine ⟨nd', hr, hc.memoryLog, hc.currentTerm, hc.currentRole, hc.commit.trans ?_⟩
  rw [List.append_nil]
  exact committedBy_perm ((List.reverse_perm order).trans hp.symm)

/-- A leader of three nodes with two entries, of which node `1` acknowledges both and node `2` the
first. -/
theorem ack_order_two :
    ∃ (nd nd' nd'' : Node 3) (a b : Ack 3), takeAcks [a, b] nd = some nd' ∧
      takeAcks [b, a] nd = some nd'' ∧ a.req.entries.length = 2 ∧ b.req.entries.length = 1 ∧
      nd'.log.getLastCommitIndex = 1 ∧ nd''.log.getLastCommitIndex = 1 := by
  let e : Entry := ⟨1, 1, .kMkdir, ['/', 'a']⟩
  let e' : Entry := ⟨1, 2, .kMkdir, ['/', 'b']⟩
  let nd : Node 3 := { Node.init (fun _ => ⟨0, 0⟩) (fun _ => 1) with
    currentTerm := 1, currentRole := .kLeader, leaderId := some 0, log := ⟨[e, e'], 0⟩ }
  let a : Ack 3 := ⟨1, ⟨1, 0, 0, 1, [e, e'], 0⟩, ⟨1, true, 2⟩⟩
  let b : Ack 3 := ⟨2, ⟨1, 0, 0, 1, [e], 0⟩, ⟨1, true, 1⟩⟩
  have hin : ∀ c ∈ [a, b], c.Within nd := by
    intro c hc
    rcases List.mem_pair.1 hc with rfl | rfl
    · exact ⟨rfl, le_rfl, by decide, by decide⟩
    · exact ⟨rfl, le_rfl, by decide, by decide⟩
  have hmax : max nd.log.getLastCommitIndex ((quorumIndices nd [a, b]).sup id) = 1 := by
    decide +kernel
  obtain ⟨nd', hr, -, -, -, hc⟩ := ack_order hin [a, b] (.refl _)
  obtain ⟨nd'', hr', -, -, -, hc'⟩ := ack_order hin [b, a] (.swap _ _ _)
  exact ⟨nd, nd', nd'', a, b, hr, hr', rfl, rfl, hc.trans hmax, hc'.trans hmax⟩

end Node

end RaftFS
