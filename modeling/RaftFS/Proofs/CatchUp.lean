import RaftFS.Proofs.Acks
import RaftFS.Proofs.Overlap
import RaftFS.Proofs.Refusals

/-!
# Catching up

A leader that brings one remote up to date, with nothing else going on. The leader tries the places
`p`, `p - 6`, `p - 12`, ... of its log until the remote takes what comes after one. That ends, with
the remote's log equal to the leader's once it has taken entries, just where there is such a place
and the remote's log fits the leader's there (`catches_up_iff`). Where the first entries are of
different terms there is no such place, and the leader is refused for ever (`never_catches_up`).
-/

namespace RaftFS

variable {n : ℕ}

namespace LogManager

variable {log : LogManager} {L F : List Entry} {p : ℕ}

/-- A follower with the log `F` takes what the leader's log has after the place `p`: it has no gap
before the place, and there is nothing to add, or its log ends there, or the first entries of both
are of one term. -/
def Takes (L F : List Entry) (p : ℕ) : Prop :=
  p ≤ F.length ∧ (p = L.length ∨ p = F.length ∨ F[p]?.map (·.term) = L[p]?.map (·.term))

instance (L F : List Entry) (p : ℕ) : Decidable (Takes L F p) := inferInstanceAs (Decidable (_ ∧ _))

/-- What the follower's log is after it has taken that. -/
def taken (L F : List Entry) (p : ℕ) : List Entry :=
  if p = L.length then F else if p = F.length then F ++ L.drop p else laidOver F (L.drop p) p

/-- There is nothing to add, or the logs agree before the place, the follower's ends there or is no
shorter than the leader's, and from there on two entries of one place and term are the same. -/
def Fits (L F : List Entry) (p : ℕ) : Prop :=
  p = L.length ∨ (F.take p = L.take p ∧ (F.length = p ∨ L.length ≤ F.length) ∧
    ∀ (i : ℕ) (x y : Entry), p ≤ i → F[i]? = some x → L[i]? = some y → x.term = y.term → x = y)

/-- Inside the log, what is to be kept is what was brought just where entries of one place and term
are the same. -/
theorem map_keptLocal_eq_iff (hL : Numbered L) (hF : Numbered F) :
    (L.drop p).map (keptLocal F) = L.drop p ↔
      ∀ (i : ℕ) (x y : Entry), p ≤ i → F[i]? = some x → L[i]? = some y →
        x.term = y.term → x = y := by
  have hkept : ∀ (i : ℕ) (x y : Entry), F[i]? = some x → L[i]? = some y →
      keptLocal F y = if x.term = y.term then x else y := by
    intro i x y hx hy
    have hi : y.index = x.index := (hL i y hy).trans (hF i x hx).symm
    rw [keptLocal_eq hF (hL i y hy), hx, Option.map_some, Option.getD_some, pick]
    simp only [hi, true_and, eq_comm]
  constructor
  · intro h i x y hp hx hy ht
    obtain ⟨j, rfl⟩ := Nat.exists_eq_add_of_le hp
    have hj := congrArg (fun l => l[j]?) h
    simp only [List.getElem?_map, List.getElem?_drop, hy, Option.map_some, Option.some.injEq] at hj
    rw [hkept _ x y hx hy, if_pos ht] at hj
    exact hj
  · intro h
    refine List.ext_getElem? fun j => ?_
    rw [List.getElem?_map, List.getElem?_drop]
    rcases hy : L[p + j]? with _ | y
    · rfl
    · rw [Option.map_some, Option.some.injEq]
      rcases hx : F[p + j]? with _ | x
      · rw [keptLocal_eq hF (hL _ y hy), hx]
        rfl
      · rw [hkept _ x y hx hy]
        split_ifs with ht
        · exact h _ x y (Nat.le_add_right _ _) hx hy ht
        · rfl

/-- What is taken makes the logs equal just where they fit. -/
theorem taken_eq_iff (hL : Numbered L) (hF : Numbered F) (hp : p < L.length)
    (ht : Takes L F p) : taken L F p = L ↔ Fits L F p := by
  have hlen : (L.drop p).length = L.length - p := List.length_drop
  unfold taken Fits
  rw [if_neg hp.ne]
  simp only [hp.ne, false_or]
  split_ifs with hend
  · have hnone : ∀ i, p ≤ i → F[i]? = none := fun i hi => List.getElem?_eq_none (by omega)
    have htake : F.take p = F := by rw [hend, List.take_length]
    rw [htake]
    constructor
    · intro h
      refine ⟨?_, .inl hend.symm, fun i x y hi hx => by simp [hnone i hi] at hx⟩
      rw [← h, hend, List.take_left]
    · rintro ⟨h, -, -⟩
      rw [h, List.take_append_drop]
  · have hlt : p < F.length := lt_of_le_of_ne ht.1 hend
    by_cases hshort : L.length ≤ F.length
    · have hspec : laidOver F (L.drop p) p = F.take p ++ (L.drop p).map (keptLocal F) := by
        refine laidOver_eq_spec hF (by omega) fun j e hj => ?_
        rw [List.getElem?_drop] at hj
        exact hL _ e hj
      have htake : (F.take p).length = (L.take p).length := by
        simp only [List.length_take]
        omega
      rw [hspec]
      constructor
      · intro h
        obtain ⟨hbefore, hafter⟩ := List.append_inj (h.trans (List.take_append_drop p L).symm) htake
        exact ⟨hbefore, .inr hshort, (map_keptLocal_eq_iff hL hF).1 hafter⟩
      · rintro ⟨hbefore, -, hafter⟩
        rw [hbefore, (map_keptLocal_eq_iff hL hF).2 hafter, List.take_append_drop]
    · refine iff_of_false (fun h => ?_) fun h => ?_
      · have hless : (laidOver F (L.drop p) p).length < p + (L.drop p).length :=
          length_laidOver_lt hlt.le (by omega)
        rw [h] at hless
        omega
      · omega

end LogManager

open LogManager

namespace Node

variable {req : AppendEntriesRequest n} {log : LogManager} {L : List Entry} {p : ℕ}

/-- What storing the leader's entries after the place `p` makes of a numbered log. -/
theorem storeEntries_eq (hL : Numbered L) (hF : Numbered log.memoryLog) (hp : p ≤ L.length)
    (hprev : req.prevLogIndex = p) (hes : req.entries = L.drop p) :
    storeEntries req log = some (if Takes L log.memoryLog p
      then ({ log with memoryLog := taken L log.memoryLog p }, true) else (log, false)) := by
  unfold storeEntries Takes taken
  rw [hprev, hes, getLastLogIndex_eq hF]
  by_cases hgap : p ≤ log.memoryLog.length
  · simp only [hgap, if_true, true_and]
    by_cases hend : p = L.length
    · simp [hend]
    · have hlt : p < L.length := lt_of_le_of_ne hp hend
      have hfront : (L[p]).index = p + 1 := hL _ _ (List.getElem?_eq_getElem hlt)
      rw [List.drop_eq_getElem_cons hlt, List.getElem?_eq_getElem hlt,
        appendBatch_eq hF hfront hgap]
      simp only [hend, false_or, if_false, List.isEmpty_cons, Bool.false_eq_true, Option.map_some]
      by_cases h1 : p = log.memoryLog.length
      · rw [if_pos h1, if_pos (.inl h1), if_pos h1]
      · rw [if_neg h1, if_neg h1]
        simp only [h1, false_or]
        split_ifs
        · rfl
        · rfl
  · simp [hgap]

end Node

/-- A leader and a remote it brings up to date. -/
structure Replication (n : ℕ) where
  leader : Node n
  follower : Node n

namespace Replication

variable (self r : Fin n)

/-- A turn of the leader's `RemoteHostLoop`, with the request and the response. A node that no
longer leads sends none. -/
def turn (s : Replication n) :
    Option (Replication n × Option (AppendEntriesRequest n × AppendEntriesResponse)) :=
  if s.leader.isLeader then do
    let req := s.leader.appendEntriesRequest self r
    let (follower, resp) ← s.follower.onAppendEntries req
    let (leader, _) ← s.leader.onAppendEntriesResponse r req resp
    return (⟨leader, follower⟩, some (req, resp))
  else some (s, none)

/-- The nodes after `k` turns. -/
def after (s : Replication n) : ℕ → Option (Replication n)
  | 0 => some s
  | k + 1 => (after s k).bind fun t => (t.turn self r).map Prod.fst

/-- The next request is refused. -/
def Rejected (s : Replication n) : Prop :=
  ∃ t req resp, s.turn self r = some (t, some (req, resp)) ∧ resp.success = false

/-- The next request has entries and is a success. -/
def Accepted (s : Replication n) : Prop :=
  ∃ t req resp, s.turn self r = some (t, some (req, resp)) ∧ req.entries ≠ [] ∧
    resp.success = true

/-- Every turn has a result, only finitely many requests are refused, and after one with entries
that is a success the remote's log is the leader's. -/
structure CatchesUp (s : Replication n) : Prop where
  defined : ∀ k, (s.after self r k).isSome
  rejected : ∃ K, ∀ k t, K ≤ k → s.after self r k = some t → ¬ t.Rejected self r
  equal : ∀ k m t u, s.after self r k = some t → t.Accepted self r → k < m →
    s.after self r m = some u → u.follower.log.memoryLog = s.leader.log.memoryLog

/-- The leader, of the term `T`, has the log `L` and is to send what comes after the place `p`. -/
structure Sends (L : List Entry) (T p : ℕ) (s : Replication n) : Prop where
  role : s.leader.currentRole = .kLeader
  log : s.leader.log.memoryLog = L
  term : s.leader.currentTerm = T
  next : s.leader.nextIndex r = p + 1
  le : s.follower.currentTerm ≤ T

variable {self r} {s t : Replication n} {L : List Entry} {T p : ℕ}

section Turn

theorem Sends.request (h : Sends r L T p s) (hL : Numbered L) (self : Fin n) :
    (s.leader.appendEntriesRequest self r).prevLogIndex = p ∧
      (s.leader.appendEntriesRequest self r).entries = L.drop p ∧
      (s.leader.appendEntriesRequest self r).term = T := by
  have hprev : (s.leader.appendEntriesRequest self r).prevLogIndex = p := by
    simp [Node.appendEntriesRequest, h.next]
  have hes := Node.appendEntriesRequest_entries self r (h.log ▸ hL)
  rw [hprev, h.log] at hes
  exact ⟨hprev, hes, h.term⟩

/-- What the follower makes of the request, where it does not look at the last entry of an empty
log. -/
theorem Sends.exists_onAppendEntries (h : Sends r L T p s) (hL : Numbered L)
    (hF : Numbered s.follower.log.memoryLog) (hp : p ≤ L.length)
    (hdef : s.follower.log.memoryLog ≠ [] ∨ Takes L s.follower.log.memoryLog p ∨
      p = L.length ∧ s.leader.log.getLastCommitIndex = 0) (self : Fin n) :
    ∃ nd resp, s.follower.onAppendEntries (s.leader.appendEntriesRequest self r) =
        some (nd, resp) ∧ resp.term = s.follower.currentTerm ∧ nd.currentTerm = T ∧
      (resp.success = true ↔ Takes L s.follower.log.memoryLog p) ∧
      (resp.success = true → resp.lastLogIndex = nd.log.getLastLogIndex ∧
        nd.log.memoryLog = taken L s.follower.log.memoryLog p) ∧
      (resp.success = false → nd.log.memoryLog = s.follower.log.memoryLog) := by
  obtain ⟨hprev, hes, hterm⟩ := h.request hL self
  have hcommit : (s.leader.appendEntriesRequest self r).leaderCommitIndex =
      s.leader.log.getLastCommitIndex := rfl
  generalize s.leader.appendEntriesRequest self r = req at hprev hes hterm hcommit
  have hsome : (s.follower.onAppendEntries req).isSome := by
    rw [Node.onAppendEntries_isSome_iff, hprev, hes, hcommit]
    rcases hdef with hne | htakes | ⟨hend, hzero⟩
    · exact .inl hne
    · by_cases hnil : s.follower.log.memoryLog = []
      · obtain rfl : p = 0 := by simpa [hnil] using htakes.1
        rw [List.drop_zero]
        by_cases hLnil : L = []
        · exact .inr (.inr (.inr ⟨hLnil, getLastCommitIndex_of_eq (h.log.trans hLnil)⟩))
        · exact .inr (.inr (.inl ⟨rfl, hLnil⟩))
      · exact .inl hnil
    · exact .inr (.inr (.inr ⟨by rw [hend, List.drop_length], hzero⟩))
  obtain ⟨⟨nd, resp⟩, hap⟩ := Option.isSome_iff_exists.1 hsome
  refine ⟨nd, resp, hap, ?_⟩
  rcases Node.onAppendEntries_cases hap with ⟨hlt, -⟩ | ⟨_, _, _, log, log', _, ha, rfl⟩
  · have := h.le
    omega
  · have hst := ha.stored
    rw [Node.storeEntries_eq hL hF hp hprev hes, Option.some.injEq] at hst
    refine ⟨ha.resp_term, hterm, ?_⟩
    simp only [ha.memoryLog]
    split_ifs at hst with htakes
    · obtain ⟨rfl, hok⟩ := Prod.mk.inj hst
      exact ⟨by simp [← hok, htakes], fun hs => ⟨ha.resp_last hs, rfl⟩,
        fun hs => by simp [hs] at hok⟩
    · obtain ⟨rfl, hok⟩ := Prod.mk.inj hst
      exact ⟨by simp [← hok, htakes], fun hs => by simp [hs] at hok, fun _ => rfl⟩

/-- What the leader makes of the response. -/
theorem Sends.exists_onAppendEntriesResponse (h : Sends r L T p s) (hL : Numbered L)
    (hp : p ≤ L.length) {resp : AppendEntriesResponse} (hle : resp.term ≤ T) (self : Fin n) :
    ∃ nd commit next, s.leader.onAppendEntriesResponse r (s.leader.appendEntriesRequest self r)
        resp = some (nd, commit, next) ∧ nd.currentRole = .kLeader ∧ nd.log.memoryLog = L ∧
      nd.currentTerm = T ∧ (resp.success = false → nd.log = s.leader.log) ∧
      nd.nextIndex r = (if resp.term < T then p else if resp.success = false then p - 6
        else if p = L.length then p else resp.lastLogIndex) + 1 := by
  obtain ⟨hprev, hes, hterm⟩ := h.request hL self
  generalize s.leader.appendEntriesRequest self r = req at hprev hes hterm
  unfold Node.onAppendEntriesResponse
  rw [h.term]
  by_cases hlt : resp.term < T
  · rw [if_neg hlt.ne, if_neg (not_lt.2 hle), if_pos hlt]
    exact ⟨_, _, _, rfl, h.role, h.log, h.term, fun _ => rfl, h.next⟩
  · rw [if_pos (le_antisymm hle (not_lt.1 hlt)), if_neg hlt]
    by_cases hs : resp.success = true
    · have hs' : ¬ resp.success = false := by simp [hs]
      rw [if_pos hs, if_neg hs']
      by_cases hend : p = L.length
      · have hemp : req.entries.isEmpty = true := by rw [hes, hend, List.drop_length]; rfl
        rw [if_pos hemp, if_pos hend]
        exact ⟨_, _, _, rfl, h.role, h.log, h.term, fun h0 => absurd h0 hs', h.next⟩
      · have hne : L.drop p ≠ [] := fun h0 => hend (le_antisymm hp (List.drop_eq_nil_iff.1 h0))
        have hemp : ¬ req.entries.isEmpty = true := by simpa [hes] using hne
        have hLne : s.leader.log.memoryLog ≠ [] := by
          rintro h0
          rw [h.log] at h0
          simp [h0] at hne
        obtain ⟨log, fs, commit, hack, hm, -⟩ := Node.recordAck_eq r req resp rfl (.inl hLne)
        rw [if_neg hemp, if_neg hend, hack]
        exact ⟨_, _, _, rfl, h.role, hm.trans h.log, h.term, fun h0 => absurd h0 hs',
          Function.update_self ..⟩
    · have hs' : resp.success = false := by simpa using hs
      rw [if_neg hs, if_pos hs']
      refine ⟨_, _, _, rfl, ?_⟩
      unfold Node.backOff Node.resetNextIndex
      rw [hprev]
      split_ifs with h5
      · refine ⟨h.role, h.log, h.term, fun _ => rfl, ?_⟩
        simp only [Function.update_self]
        omega
      · refine ⟨h.role, h.log, h.term, fun _ => rfl, ?_⟩
        simp only [Function.update_self]
        omega

/-- A turn, where the follower does not look at the last entry of an empty log. -/
theorem Sends.exists_turn (h : Sends r L T p s) (hL : Numbered L)
    (hF : Numbered s.follower.log.memoryLog) (hp : p ≤ L.length)
    (hdef : s.follower.log.memoryLog ≠ [] ∨ Takes L s.follower.log.memoryLog p ∨
      p = L.length ∧ s.leader.log.getLastCommitIndex = 0) (self : Fin n) :
    ∃ t req resp, s.turn self r = some (t, some (req, resp)) ∧ req.entries = L.drop p ∧
      t.follower.currentTerm = T ∧
      (Takes L s.follower.log.memoryLog p ∧ resp.success = true ∧
          t.follower.log.memoryLog = taken L s.follower.log.memoryLog p ∧
          Sends r L T (if s.follower.currentTerm < T then p
            else if p = L.length then p else t.follower.log.getLastLogIndex) t ∨
        ¬ Takes L s.follower.log.memoryLog p ∧ resp.success = false ∧
          t.follower.log.memoryLog = s.follower.log.memoryLog ∧ t.leader.log = s.leader.log ∧
          Sends r L T (if s.follower.currentTerm < T then p else p - 6) t) := by
  obtain ⟨follower, resp, hap, hterm, hfterm, hiff, hyes, hno⟩ :=
    h.exists_onAppendEntries hL hF hp hdef self
  obtain ⟨leader, commit, next, hres, hrole, hlog, hlterm, hkept, hnext⟩ :=
    h.exists_onAppendEntriesResponse hL hp (hterm.trans_le h.le) self
  have hturn : s.turn self r =
      some (⟨leader, follower⟩, some (s.leader.appendEntriesRequest self r, resp)) := by
    unfold turn
    rw [if_pos (Node.isLeader_eq_true.2 h.role)]
    simp only [hap, hres, Option.bind_eq_bind, Option.bind_some]
    rfl
  refine ⟨⟨leader, follower⟩, _, resp, hturn, (h.request hL self).2.1, hfterm, ?_⟩
  rw [hterm] at hnext
  by_cases hs : resp.success = true
  · have hs' : ¬ resp.success = false := by simp [hs]
    rw [if_neg hs', (hyes hs).1] at hnext
    exact .inl ⟨hiff.1 hs, hs, (hyes hs).2, ⟨hrole, hlog, hlterm, hnext, hfterm.le⟩⟩
  · have hs' : resp.success = false := by simpa using hs
    rw [if_pos hs'] at hnext
    exact .inr ⟨mt hiff.2 hs, hs', hno hs', hkept hs', ⟨hrole, hlog, hlterm, hnext, hfterm.le⟩⟩

theorem Sends.turn_eq_none (h : Sends r L T p s) (hL : Numbered L) (hp : p ≤ L.length)
    (hnil : s.follower.log.memoryLog = []) (hnot : ¬ Takes L [] p)
    (hend : ¬ (p = L.length ∧ s.leader.log.getLastCommitIndex = 0)) (self : Fin n) :
    s.turn self r = none := by
  obtain ⟨hprev, hes, hterm⟩ := h.request hL self
  have hcommit : (s.leader.appendEntriesRequest self r).leaderCommitIndex =
      s.leader.log.getLastCommitIndex := rfl
  have hnone : s.follower.onAppendEntries (s.leader.appendEntriesRequest self r) = none := by
    rw [← Option.not_isSome_iff_eq_none, Node.onAppendEntries_isSome_iff, hprev, hes, hcommit,
      hterm]
    rintro (hne | hlt | ⟨rfl, -⟩ | ⟨hdrop, hzero⟩)
    · exact hne hnil
    · exact absurd hlt (not_lt.2 h.le)
    · exact hnot ⟨le_rfl, .inr (.inl rfl)⟩
    · exact hend ⟨le_antisymm hp (List.drop_eq_nil_iff.1 hdrop), hzero⟩
  unfold turn
  rw [if_pos (Node.isLeader_eq_true.2 h.role)]
  simp only [hnone, Option.bind_eq_bind, Option.bind_none]

end Turn

section Run

variable {req : AppendEntriesRequest n} {resp : AppendEntriesResponse}
  {x : Option (AppendEntriesRequest n × AppendEntriesResponse)}

theorem after_add (k m : ℕ) :
    s.after self r (k + m) = (s.after self r k).bind (after self r · m) := by
  induction m with
  | zero => cases s.after self r k <;> rfl
  | succ m ih => rw [← Nat.add_assoc, after, ih, Option.bind_assoc]; rfl

theorem after_succ (h : s.turn self r = some (t, x)) (k : ℕ) :
    s.after self r (k + 1) = t.after self r k := by
  have h1 : s.after self r 1 = some t := by simp [after, h]
  rw [Nat.add_comm, after_add, h1, Option.bind_some]

theorem CatchesUp.of_turn (h : s.turn self r = some (t, x))
    (hl : t.leader.log.memoryLog = s.leader.log.memoryLog) (ht : t.CatchesUp self r)
    (hacc : s.Accepted self r → ∀ m u, t.after self r m = some u →
      u.follower.log.memoryLog = s.leader.log.memoryLog) : s.CatchesUp self r := by
  obtain ⟨hdef, ⟨K, hK⟩, heq⟩ := ht
  refine ⟨fun k => ?_, ⟨K + 1, fun k u hk hu => ?_⟩, fun k m u v hu ha hkm hv => ?_⟩
  · cases k with
    | zero => rfl
    | succ k => exact after_succ h k ▸ hdef k
  · obtain ⟨k, rfl⟩ : ∃ k', k = k' + 1 := ⟨k - 1, by omega⟩
    exact hK k u (by omega) (after_succ h k ▸ hu)
  · obtain ⟨m, rfl⟩ : ∃ m', m = m' + 1 := ⟨m - 1, by omega⟩
    cases k with
    | zero =>
      obtain rfl := Option.some.inj hu
      exact hacc ha m v (after_succ h m ▸ hv)
    | succ k =>
      rw [← hl]
      exact heq k m u v (after_succ h k ▸ hu) ha (by omega) (after_succ h m ▸ hv)

theorem rejected_iff (h : s.turn self r = some (t, some (req, resp))) :
    s.Rejected self r ↔ resp.success = false := by
  constructor
  · rintro ⟨_, _, resp', hturn, hs⟩
    rw [h] at hturn
    obtain ⟨-, -, rfl⟩ : t = _ ∧ req = _ ∧ resp = resp' := by simpa using hturn
    exact hs
  · intro hs
    exact ⟨t, req, resp, h, hs⟩

theorem accepted_iff (h : s.turn self r = some (t, some (req, resp))) :
    s.Accepted self r ↔ req.entries ≠ [] ∧ resp.success = true := by
  constructor
  · rintro ⟨_, req', resp', hturn, hne, hs⟩
    rw [h] at hturn
    obtain ⟨-, rfl, rfl⟩ : t = _ ∧ req = req' ∧ resp = resp' := by simpa using hturn
    exact ⟨hne, hs⟩
  · rintro ⟨hne, hs⟩
    exact ⟨t, req, resp, h, hne, hs⟩

theorem catchesUp_of_refused (h : s.turn self r = some (t, some (req, resp)))
    (hs : resp.success = false) (hl : t.leader.log.memoryLog = s.leader.log.memoryLog) :
    s.CatchesUp self r ↔ t.CatchesUp self r := by
  have hno : ¬ s.Accepted self r := by simp [accepted_iff h, hs]
  refine ⟨?_, fun ht => ht.of_turn h hl fun ha => absurd ha hno⟩
  rintro ⟨hdef, ⟨K, hK⟩, heq⟩
  refine ⟨fun k => ?_, ⟨K, fun k u hk hu => ?_⟩, fun k m u v hu ha hkm hv => ?_⟩
  · exact after_succ h k ▸ hdef (k + 1)
  · exact hK (k + 1) u (by omega) (after_succ h k ▸ hu)
  · rw [hl]
    exact heq (k + 1) (m + 1) u v (after_succ h k ▸ hu) ha (by omega) (after_succ h m ▸ hv)

/-- The follower has the leader's log, or one that is not shorter and gets nothing more. -/
def Calm (r : Fin n) (L : List Entry) (T : ℕ) (s : Replication n) : Prop :=
  ∃ p, Sends r L T p s ∧ p ≤ L.length ∧ Numbered s.follower.log.memoryLog ∧
    (s.follower.log.memoryLog = L ∧ L ≠ [] ∨
      p = L.length ∧ L.length ≤ s.follower.log.memoryLog.length)

theorem Calm.turn (h : Calm r L T s) (hL : Numbered L) (self : Fin n) :
    ∃ t req resp, s.turn self r = some (t, some (req, resp)) ∧ resp.success = true ∧
      Calm r L T t ∧ t.follower.log.memoryLog = s.follower.log.memoryLog ∧
      (req.entries ≠ [] → s.follower.log.memoryLog = L) := by
  obtain ⟨p, hs, hp, hF, hor⟩ := h
  have htakes : Takes L s.follower.log.memoryLog p := by
    rcases hor with ⟨hlog, -⟩ | ⟨hend, hle⟩
    · rw [hlog]
      exact ⟨hp, .inr (.inr rfl)⟩
    · exact ⟨hend ▸ hle, .inl hend⟩
  have hsame : taken L s.follower.log.memoryLog p = s.follower.log.memoryLog := by
    by_cases hend : p = L.length
    · exact if_pos hend
    · obtain ⟨hlog, -⟩ := hor.resolve_right fun h => hend h.1
      rw [hlog] at htakes ⊢
      exact (taken_eq_iff hL hL (lt_of_le_of_ne hp hend) htakes).2
        (.inr ⟨rfl, .inr le_rfl, fun i x y _ hx hy _ => Option.some.inj (hx.symm.trans hy)⟩)
  obtain ⟨t, req, resp, hturn, hes, -, ⟨-, hsucc, htaken, hnext⟩ | ⟨hnot, -⟩⟩ :=
    hs.exists_turn hL hF hp (.inr (.inl htakes)) self
  · rw [hsame] at htaken
    have hF' : Numbered t.follower.log.memoryLog := htaken.symm ▸ hF
    refine ⟨t, req, resp, hturn, hsucc, ⟨_, hnext, ?_, hF', ?_⟩, htaken, fun hne => ?_⟩
    · split_ifs with hlag hend
      · exact hp
      · exact hp
      · obtain ⟨hlog, -⟩ := hor.resolve_right fun h => hend h.1
        rw [getLastLogIndex_eq hF', htaken, hlog]
    · rw [htaken]
      refine hor.imp_right fun ⟨hend, hle⟩ => ⟨?_, hle⟩
      rw [if_pos hend, ite_self, hend]
    · refine (hor.resolve_right fun h => hne ?_).1
      rw [hes, h.1, List.drop_length]
  · exact absurd htakes hnot

theorem Calm.after (h : Calm r L T s) (hL : Numbered L) (self : Fin n) : ∀ k,
    ∃ t, s.after self r k = some t ∧ Calm r L T t ∧
      t.follower.log.memoryLog = s.follower.log.memoryLog
  | 0 => ⟨s, rfl, h, rfl⟩
  | k + 1 => by
    obtain ⟨t, ht, hcalm, hlog⟩ := Calm.after h hL self k
    obtain ⟨u, req, resp, hturn, -, hcalm', hlog', -⟩ := hcalm.turn hL self
    refine ⟨u, ?_, hcalm', hlog'.trans hlog⟩
    simp only [Replication.after, ht, Option.bind_some, hturn, Option.map_some]

theorem Calm.catchesUp (h : Calm r L T s) (hL : Numbered L) (self : Fin n) :
    s.CatchesUp self r := by
  have hrun := h.after hL self
  refine ⟨fun k => ?_, ⟨0, fun k t _ ht => ?_⟩, fun k m t u ht ha _ hu => ?_⟩
  · obtain ⟨t, ht, -⟩ := hrun k
    rw [ht]
    rfl
  · obtain ⟨t', ht', hcalm, -⟩ := hrun k
    obtain rfl := Option.some.inj (ht.symm.trans ht')
    obtain ⟨_, _, resp, hturn, hs, -⟩ := hcalm.turn hL self
    simp [rejected_iff hturn, hs]
  · obtain ⟨t', ht', hcalm, hlog⟩ := hrun k
    obtain rfl := Option.some.inj (ht.symm.trans ht')
    obtain ⟨u', hu', -, hlog'⟩ := hrun m
    obtain rfl := Option.some.inj (hu.symm.trans hu')
    obtain ⟨_, req, _, hturn, -, -, -, heq⟩ := hcalm.turn hL self
    obtain ⟨p, hsends, -⟩ := h
    rw [hlog', ← hlog, heq ((accepted_iff hturn).1 ha).1, hsends.log]

/-- Where the follower takes what comes after the place, the logs have to fit there. -/
theorem Sends.catchesUp_iff_fits (h : Sends r L T p s) (hL : Numbered L)
    (hF : Numbered s.follower.log.memoryLog) (hp : p ≤ L.length)
    (htakes : Takes L s.follower.log.memoryLog p) (self : Fin n) :
    s.CatchesUp self r ↔ Fits L s.follower.log.memoryLog p := by
  by_cases hend : p = L.length
  · exact iff_of_true (Calm.catchesUp ⟨p, h, hp, hF, .inr ⟨hend, hend ▸ htakes.1⟩⟩ hL self)
      (.inl hend)
  · have hlt := lt_of_le_of_ne hp hend
    have hne : L.drop p ≠ [] := fun h0 => hend (le_antisymm hp (List.drop_eq_nil_iff.1 h0))
    obtain ⟨t, req, resp, hturn, hes, -, ⟨-, hs, htaken, hnext⟩ | ⟨hnot, -⟩⟩ :=
      h.exists_turn hL hF hp (.inr (.inl htakes)) self
    · rw [← taken_eq_iff hL hF hlt htakes, ← htaken]
      have hafter : s.after self r 1 = some t := after_succ hturn 0
      constructor
      · rintro ⟨-, -, heq⟩
        rw [heq 0 1 s t rfl ⟨t, req, resp, hturn, hes ▸ hne, hs⟩ one_pos hafter, h.log]
      · intro hlog
        have hLne : L ≠ [] := by
          rintro rfl
          simp at hlt
        have hcalm : Calm r L T t := by
          refine ⟨_, hnext, ?_, hlog ▸ hL, .inl ⟨hlog, hLne⟩⟩
          rw [getLastLogIndex_eq (hlog ▸ hL), hlog]
          split_ifs
          · exact hp
          · exact le_rfl
        refine (hcalm.catchesUp hL self).of_turn hturn (hnext.log.trans h.log.symm) ?_
        intro _ m u hu
        obtain ⟨u', hu', -, hlog'⟩ := hcalm.after hL self m
        obtain rfl := Option.some.inj (hu.symm.trans hu')
        rw [hlog', hlog, h.log]
    · exact absurd htakes hnot

/-- At the start of the log, a follower that does not take the leader's entries never does. -/
theorem Sends.stuck (h : Sends r L T 0 s) (hL : Numbered L) (hF : Numbered s.follower.log.memoryLog)
    (hnot : ¬ Takes L s.follower.log.memoryLog 0) (self : Fin n) : ∀ k,
    ∃ t, s.after self r k = some t ∧ t.Rejected self r ∧ Sends r L T 0 t ∧
      t.follower.log.memoryLog = s.follower.log.memoryLog := by
  have hne : ∀ t : Replication n, t.follower.log.memoryLog = s.follower.log.memoryLog →
      t.follower.log.memoryLog ≠ [] := by
    intro t hlog hnil
    exact hnot ⟨Nat.zero_le _, .inr (.inl (by rw [← hlog, hnil]; rfl))⟩
  have hstep : ∀ t : Replication n, Sends r L T 0 t →
      t.follower.log.memoryLog = s.follower.log.memoryLog → t.Rejected self r ∧
        ∃ u x, t.turn self r = some (u, x) ∧ Sends r L T 0 u ∧
          u.follower.log.memoryLog = s.follower.log.memoryLog := by
    intro t ht hlog
    obtain ⟨u, req, resp, hturn, -, -, ⟨htakes, -⟩ | ⟨-, hs, hlog', -, hnext⟩⟩ :=
      ht.exists_turn hL (hlog ▸ hF) (Nat.zero_le _) (.inl (hne t hlog)) self
    · exact absurd (hlog ▸ htakes) hnot
    · rw [Nat.zero_sub, ite_self] at hnext
      exact ⟨⟨u, req, resp, hturn, hs⟩, u, _, hturn, hnext, hlog'.trans hlog⟩
  intro k
  induction k with
  | zero => exact ⟨s, rfl, (hstep s h rfl).1, h, rfl⟩
  | succ k ih =>
    obtain ⟨t, ht, -, hsends, hlog⟩ := ih
    obtain ⟨-, u, x, hturn, hsends', hlog'⟩ := hstep t hsends hlog
    refine ⟨u, ?_, (hstep u hsends' hlog').1, hsends', hlog'⟩
    simp only [Replication.after, ht, Option.bind_some, hturn, Option.map_some]

theorem Sends.never (h : Sends r L T 0 s) (hL : Numbered L) (hF : Numbered s.follower.log.memoryLog)
    (hnot : ¬ Takes L s.follower.log.memoryLog 0) (self : Fin n) : ¬ s.CatchesUp self r := by
  rintro ⟨-, ⟨K, hK⟩, -⟩
  obtain ⟨t, ht, hrej, -⟩ := h.stuck hL hF hnot self K
  exact hK K t le_rfl ht hrej

theorem catchesUp_of_not_leader (h : s.leader.currentRole ≠ .kLeader) : s.CatchesUp self r := by
  have hturn : s.turn self r = some (s, none) := if_neg (mt Node.isLeader_eq_true.1 h)
  have hafter : ∀ k, s.after self r k = some s := by
    intro k
    induction k with
    | zero => rfl
    | succ k ih => rw [after, ih, Option.bind_some, hturn]; rfl
  have hno : ∀ (k : ℕ) (t : Replication n), s.after self r k = some t →
      ∀ u y, t.turn self r ≠ some (u, some y) := by
    intro k t ht u y hy
    obtain rfl := Option.some.inj ((hafter k).symm.trans ht)
    rw [hturn] at hy
    cases hy
  refine ⟨fun k => by rw [hafter k]; rfl, ⟨0, fun k t _ ht hrej => ?_⟩,
    fun k _ t _ ht hacc _ _ => ?_⟩
  · obtain ⟨_, _, _, hy, -⟩ := hrej
    exact hno k t ht _ _ hy
  · obtain ⟨_, _, _, hy, -⟩ := hacc
    exact absurd hy (hno k t ht _ _)

/-- A leader whose term is behind the remote's steps down. -/
theorem catchesUp_of_term_lt (hrole : s.leader.currentRole = .kLeader)
    (h : s.leader.currentTerm < s.follower.currentTerm) : s.CatchesUp self r := by
  obtain ⟨resp, hresp⟩ : ∃ resp : AppendEntriesResponse,
      resp = { term := s.follower.currentTerm } := ⟨_, rfl⟩
  have hterm : resp.term = s.follower.currentTerm := by rw [hresp]
  have hap : s.follower.onAppendEntries (s.leader.appendEntriesRequest self r) =
      some (s.follower, resp) := by
    rw [hresp]
    exact if_pos h
  have hres : s.leader.onAppendEntriesResponse r (s.leader.appendEntriesRequest self r) resp =
      some (s.leader.changeToFollower resp.term, none, .wait) := by
    unfold Node.onAppendEntriesResponse
    rw [hterm, if_neg (by omega), if_pos h]
  have hturn : s.turn self r = some (⟨s.leader.changeToFollower resp.term, s.follower⟩,
      some (s.leader.appendEntriesRequest self r, resp)) := by
    unfold turn
    rw [if_pos (Node.isLeader_eq_true.2 hrole)]
    simp only [hap, hres, Option.bind_eq_bind, Option.bind_some]
    rfl
  rw [catchesUp_of_refused hturn (by rw [hresp]) rfl]
  exact catchesUp_of_not_leader (by simp [Node.changeToFollower])

end Run

/-- Of the places `p`, `p - 6`, `p - 12`, ... there is a first from which the follower takes what
the leader's log has, and the logs fit there. To a follower whose log is empty the leader sends from
the start, or it has nothing to send, is near the start and has committed nothing. -/
def Reconciles (L F : List Entry) (commitIndex p : ℕ) : Prop :=
  (F = [] → p = 0 ∨ p = L.length ∧ p ≤ 6 ∧ commitIndex = 0) ∧
    ∃ i, (∀ j < i, ¬ Takes L F (p - 6 * j)) ∧ Takes L F (p - 6 * i) ∧ Fits L F (p - 6 * i)

section Places

variable {F : List Entry} {c : ℕ}

theorem reconciles_of_takes (h : Takes L F p) : Reconciles L F c p ↔ Fits L F p := by
  constructor
  · rintro ⟨-, i, hnot, -, hfits⟩
    cases i with
    | zero => exact hfits
    | succ i => exact absurd h (hnot 0 i.succ_pos)
  · intro hfits
    refine ⟨fun hnil => .inl ?_, 0, fun j hj => absurd hj (Nat.not_lt_zero j), h, hfits⟩
    simpa [hnil] using h.1

theorem reconciles_of_not_takes (h : ¬ Takes L F p) (hpos : 0 < p)
    (hdef : F ≠ [] ∨ p = L.length ∧ c = 0) : Reconciles L F c p ↔ Reconciles L F c (p - 6) := by
  have hempty : (F = [] → p = 0 ∨ p = L.length ∧ p ≤ 6 ∧ c = 0) ↔
      (F = [] → p - 6 = 0 ∨ p - 6 = L.length ∧ p - 6 ≤ 6 ∧ c = 0) := by
    refine imp_congr_right fun hnil => ?_
    have := hdef.resolve_left (not_not.2 hnil)
    omega
  have hnext : ∀ i, p - 6 - 6 * i = p - 6 * (i + 1) := fun i => by omega
  refine and_congr hempty ⟨?_, ?_⟩
  · rintro ⟨i, hnot, htakes, hfits⟩
    cases i with
    | zero => exact absurd htakes h
    | succ i =>
      refine ⟨i, fun j hj => ?_, ?_, ?_⟩
      · rw [hnext]
        exact hnot (j + 1) (by omega)
      · rwa [hnext]
      · rwa [hnext]
  · rintro ⟨i, hnot, htakes, hfits⟩
    refine ⟨i + 1, fun j hj => ?_, ?_, ?_⟩
    · cases j with
      | zero => exact h
      | succ j =>
        rw [← hnext]
        exact hnot j (by omega)
    · rwa [← hnext]
    · rwa [← hnext]

/-- A turn settles the matter, or the request is refused and the leader backs off, unless the
response is of an older term. -/
theorem Sends.settles_or (h : Sends r L T p s) (hL : Numbered L) (hF : Numbered F)
    (hp : p ≤ L.length) (hf : s.follower.log.memoryLog = F)
    (hc : s.leader.log.getLastCommitIndex = c) (self : Fin n) :
    (s.CatchesUp self r ↔ Reconciles L F c p) ∨
      ¬ Takes L F p ∧ (F ≠ [] ∨ p = L.length ∧ c = 0) ∧
        ∃ t, (s.CatchesUp self r ↔ t.CatchesUp self r) ∧ t.follower.log.memoryLog = F ∧
          t.leader.log.getLastCommitIndex = c ∧ t.follower.currentTerm = T ∧
          Sends r L T (if s.follower.currentTerm < T then p else p - 6) t := by
  subst hf hc
  by_cases htakes : Takes L s.follower.log.memoryLog p
  · exact .inl ((h.catchesUp_iff_fits hL hF hp htakes self).trans (reconciles_of_takes htakes).symm)
  · by_cases hdef : s.follower.log.memoryLog ≠ [] ∨
        p = L.length ∧ s.leader.log.getLastCommitIndex = 0
    · obtain ⟨t, req, resp, hturn, -, hterm, ⟨hyes, -⟩ | ⟨-, hs, hlog, hleader, hnext⟩⟩ :=
        h.exists_turn hL hF hp (hdef.imp_right .inr) self
      · exact absurd hyes htakes
      · exact .inr ⟨htakes, hdef, t, catchesUp_of_refused hturn hs (by rw [hleader]), hlog,
          by rw [hleader], hterm, hnext⟩
    · obtain ⟨hnil, hend⟩ := not_or.1 hdef
      rw [not_not] at hnil
      rw [hnil] at htakes ⊢
      refine .inl (iff_of_false ?_ fun hrec => ?_)
      · rintro ⟨hdefined, -, -⟩
        have hone := hdefined 1
        simp [after, h.turn_eq_none hL hp hnil htakes hend self] at hone
      · rcases hrec.1 rfl with rfl | ⟨hlen, -, hzero⟩
        · exact htakes ⟨le_rfl, .inr (.inl rfl)⟩
        · exact hend ⟨hlen, hzero⟩

/-- Where the follower is in the leader's term, by induction on the place. -/
theorem Sends.catchesUp_iff_of_current (hL : Numbered L) (hF : Numbered F) (self : Fin n) :
    ∀ (p : ℕ) {s : Replication n}, Sends r L T p s → p ≤ L.length →
      s.follower.log.memoryLog = F → s.leader.log.getLastCommitIndex = c →
      s.follower.currentTerm = T → (s.CatchesUp self r ↔ Reconciles L F c p) := by
  intro p
  induction p using Nat.strong_induction_on with
  | _ p ih =>
    intro s h hp hf hc hT
    rcases h.settles_or hL hF hp hf hc self with hiff | ⟨hnot, hdef, t, hiff, hf', hc', hT', hnext⟩
    · exact hiff
    · rw [if_neg (by omega)] at hnext
      rcases Nat.eq_zero_or_pos p with rfl | hpos
      · subst hf
        refine iff_of_false (h.never hL hF hnot self) fun hrec => ?_
        obtain ⟨i, -, hyes, -⟩ := hrec.2
        rw [Nat.zero_sub] at hyes
        exact hnot hyes
      · rw [hiff, reconciles_of_not_takes hnot hpos hdef]
        exact ih (p - 6) (by omega) hnext (by omega) hf' hc' hT'

end Places

/-- On every log of a leader and every log of a remote, from every next index, catching up ends and
succeeds if the remote's term is later, so that the leader steps down, and else just where the logs
can be reconciled. -/
theorem catches_up_iff {s : Replication n} (hrole : s.leader.currentRole = .kLeader)
    (hL : Numbered s.leader.log.memoryLog) (hF : Numbered s.follower.log.memoryLog)
    (hpos : 1 ≤ s.leader.nextIndex r)
    (hle : s.leader.nextIndex r ≤ s.leader.log.memoryLog.length + 1) :
    s.CatchesUp self r ↔ s.leader.currentTerm < s.follower.currentTerm ∨
      Reconciles s.leader.log.memoryLog s.follower.log.memoryLog
        s.leader.log.getLastCommitIndex (s.leader.nextIndex r - 1) := by
  by_cases hterm : s.leader.currentTerm < s.follower.currentTerm
  · exact iff_of_true (catchesUp_of_term_lt hrole hterm) (.inl hterm)
  · rw [or_iff_right hterm]
    have h : Sends r s.leader.log.memoryLog s.leader.currentTerm (s.leader.nextIndex r - 1) s :=
      ⟨hrole, rfl, rfl, by omega, not_lt.1 hterm⟩
    by_cases hlag : s.follower.currentTerm < s.leader.currentTerm
    · -- the response to the first request is of an older term
      rcases h.settles_or hL hF (by omega) rfl rfl self with hiff |
        ⟨-, -, t, hiff, hf, hc, hT, hnext⟩
      · exact hiff
      · rw [if_pos hlag] at hnext
        rw [hiff]
        exact Sends.catchesUp_iff_of_current hL hF self _ hnext (by omega) hf hc hT
    · exact Sends.catchesUp_iff_of_current hL hF self _ h (by omega) rfl rfl (by omega)

/-- A leader has appended its first entry, and the log of the remote is empty. -/
theorem catches_up_first :
    ∃ s : Cluster 3, (cluster 3).Reach Runs.Sys.anyStep s ∧
      (s.node 0).log.memoryLog = [⟨1, 1, .kMkdir, ['/', 'a']⟩] ∧
      (s.node 1).log.memoryLog = [] ∧ CatchesUp 0 1 ⟨s.node 0, s.node 1⟩ := by
  let s := (cluster 3).run Runs.Sys.anyStep start3 (elect 0 1 0 ++ write 0 0 ['/', 'a'])
  have hs : (cluster 3).Reach Runs.Sys.anyStep s :=
    Runs.Sys.reach_run reach_start3 (by decide +kernel)
  have hL : (s.node 0).log.memoryLog = [⟨1, 1, .kMkdir, ['/', 'a']⟩] := by decide +kernel
  have hF : (s.node 1).log.memoryLog = [] := by decide +kernel
  have hnext : (s.node 0).nextIndex 1 = 1 := by decide +kernel
  have hrole : (s.node 0).currentRole = .kLeader := by decide +kernel
  clear_value s
  refine ⟨s, hs, hL, hF, ?_⟩
  refine (catches_up_iff hrole (hL ▸ Numbered.nil.concat rfl) (hF ▸ Numbered.nil) hnext.ge
    (by simp [hnext])).2 (.inr ⟨fun _ => .inl (by simp [hnext]), 0, by simp, ?_, ?_⟩)
  · exact ⟨by simp [hnext], .inr (.inl (by simp [hnext, hF]))⟩
  · refine .inr ⟨by simp [hnext], .inl (by simp [hnext, hF]), fun i x y _ hx => ?_⟩
    simp [hF] at hx

/-- Node `0` has an entry of the first term that no one else has got, and node `1` leads the second
term and has another in its place. -/
theorem never_catches_up :
    ∃ s : Cluster 3, (cluster 3).Reach Runs.Sys.anyStep s ∧ (s.node 1).currentRole = .kLeader ∧
      Numbered (s.node 1).log.memoryLog ∧ Numbered (s.node 0).log.memoryLog ∧
      (s.node 1).nextIndex 0 = 1 ∧
      (∀ k, ∃ t, after 1 0 ⟨s.node 1, s.node 0⟩ k = some t ∧ t.Rejected 1 0) ∧
      ¬ CatchesUp 1 0 ⟨s.node 1, s.node 0⟩ := by
  let s := (cluster 3).run Runs.Sys.anyStep start3
    (elect 0 1 0 ++ write 0 0 ['/', 'a'] ++ elect 1 2 1 ++ write 1 0 ['/', 'b'])
  have hs : (cluster 3).Reach Runs.Sys.anyStep s :=
    Runs.Sys.reach_run reach_start3 (by decide +kernel)
  have hlog : (s.node 1).log.memoryLog = [⟨2, 1, .kMkdir, ['/', 'b']⟩] := by decide +kernel
  have hlog' : (s.node 0).log.memoryLog = [⟨1, 1, .kMkdir, ['/', 'a']⟩] := by decide +kernel
  have hnext : (s.node 1).nextIndex 0 = 1 := by decide +kernel
  have hrole : (s.node 1).currentRole = .kLeader := by decide +kernel
  have hle : (s.node 0).currentTerm ≤ (s.node 1).currentTerm := by decide +kernel
  clear_value s
  have hL : Numbered (s.node 1).log.memoryLog := hlog ▸ Numbered.nil.concat rfl
  have hF : Numbered (s.node 0).log.memoryLog := hlog' ▸ Numbered.nil.concat rfl
  have h : Sends 0 (s.node 1).log.memoryLog (s.node 1).currentTerm 0 ⟨s.node 1, s.node 0⟩ :=
    ⟨hrole, rfl, rfl, hnext, hle⟩
  have hnot : ¬ Takes (s.node 1).log.memoryLog (s.node 0).log.memoryLog 0 := by
    rw [hlog, hlog']
    decide
  refine ⟨s, hs, hrole, hL, hF, hnext, fun k => ?_, h.never hL hF hnot 1⟩
  obtain ⟨t, ht, hrej, -⟩ := h.stuck hL hF hnot 1 k
  exact ⟨t, ht, hrej⟩

end Replication

end RaftFS
