import RaftFS.Client
import RaftFS.Lib.Strides

/-!
# Another follower

`ConnectFollower` goes on by two hosts where it fails with one, so that of an even number of hosts
it tries every other one only. Of two hosts it tries just the one it has, which is also where a
follower that turns out to be the leader stays (`failover_iff`).
-/

namespace RaftFS

namespace FSClient

variable {n : ℕ} {c c' : FSClient} {g : ℕ} {host : Str}

/-- The follower is the host at the place `g` of the list. -/
structure FollowerAt (c : FSClient) (g : ℕ) : Prop where
  id : c.followerId = g + 1
  lt : g < c.hosts.length

theorem FollowerAt.exists_host (h : c.FollowerAt g) : ∃ host, c.hosts[g]? = some host :=
  ⟨_, List.getElem?_eq_getElem h.lt⟩

theorem FollowerAt.of_range (hlow : 1 ≤ c.followerId) (hhigh : c.followerId ≤ c.hosts.length) :
    ∃ g, c.FollowerAt g := by
  obtain ⟨g, hg⟩ := Int.eq_ofNat_of_zero_le (Int.sub_nonneg_of_le hlow)
  refine ⟨g, ⟨by omega, by omega⟩⟩

theorem hostAt_eq (h : c.hosts[g]? = some host) : c.hostAt g = .ok host := by
  have hg : ¬ ((g : ℤ) < 0) := by omega
  rw [hostAt, if_neg hg, Int.toNat_natCast, h]

/-- The client with the host at the place `g` for its follower. -/
def withFollower (c : FSClient) (g : ℕ) (host : Str) (isOpen : Bool) : FSClient :=
  { c with followerId := g + 1, followerSock := some ⟨host, isOpen⟩ }

theorem resetFollower_eq (h : c.FollowerAt g) (hg : c.hosts[g]? = some host)
    (connects : Str → Bool) :
    c.resetFollower connects = .ok (c.withFollower g host (connects host)) := by
  have hid : c.followerId - 1 = g := by rw [h.id]; omega
  rw [resetFollower, hid, hostAt_eq hg, withFollower, ← h.id]
  rfl

theorem nextFollower_eq (h : c.FollowerAt g) : c.nextFollower =
    .ok { c with followerId := ((g + 2) % c.hosts.length : ℕ) + 1 } := by
  have hid : (c.followerId + 1) % c.hosts.length = ((g + 2) % c.hosts.length : ℕ) := by
    rw [h.id]
    push_cast
    rfl
  have hpos : c.hosts.length ≠ 0 := (Nat.zero_lt_of_lt h.lt).ne'
  rw [nextFollower, modHosts, if_neg hpos, hid]
  rfl

theorem FollowerAt.next (h : c.FollowerAt g) :
    FollowerAt { c with followerId := ((g + 2) % c.hosts.length : ℕ) + 1 }
      ((g + 2) % c.hosts.length) :=
  ⟨rfl, Nat.mod_lt _ (Nat.zero_lt_of_lt h.lt)⟩

section Reconnect

variable {connects : Attempt → Str → Bool} {left retry : ℕ}

theorem reconnect_open (h : c.FollowerAt g) (hg : c.hosts[g]? = some host)
    (ho : connects (.retry retry) host = true) :
    reconnect connects left retry c = .ok (c.withFollower g host true) := by
  cases left with
  | zero | succ left =>
    rw [reconnect, resetFollower_eq h hg, ho]
    rfl

theorem reconnect_zero (h : c.FollowerAt g) (hg : c.hosts[g]? = some host)
    (ho : connects (.retry retry) host = false) :
    reconnect connects 0 retry c = .ok (c.withFollower g host false) := by
  rw [reconnect, resetFollower_eq h hg, ho]
  rfl

theorem reconnect_succ (h : c.FollowerAt g) (hg : c.hosts[g]? = some host)
    (ho : connects (.retry retry) host = false) :
    reconnect connects (left + 1) retry c = reconnect connects left (retry + 1)
      (c.withFollower ((g + 2) % c.hosts.length) host false) := by
  have hat : (c.withFollower g host false).FollowerAt g := ⟨rfl, h.lt⟩
  rw [reconnect, resetFollower_eq h hg, ho]
  exact congrArg (· >>= reconnect connects left (retry + 1)) (nextFollower_eq hat)

/-- The loop of `ConnectFollower` comes to a host that it connects to, or has tried every second one
from the first. -/
theorem reconnect_spec (connects : Attempt → Str → Bool) :
    ∀ (left retry : ℕ) {c : FSClient} {g : ℕ}, c.FollowerAt g →
      ∃ k ≤ left, ∃ host b, c.hosts[(g + 2 * k) % c.hosts.length]? = some host ∧
        connects (.retry (retry + k)) host = b ∧
        reconnect connects left retry c =
          .ok (c.withFollower ((g + 2 * k) % c.hosts.length) host b) ∧
        (b = false → ∀ j ≤ left, ∀ host, c.hosts[(g + 2 * j) % c.hosts.length]? = some host →
          connects (.retry (retry + j)) host = false) := by
  intro left
  induction left with
  | zero =>
    intro retry c g h
    obtain ⟨host, hg⟩ := h.exists_host
    have hmod : (g + 2 * 0) % c.hosts.length = g := Nat.mod_eq_of_lt h.lt
    refine ⟨0, le_rfl, host, _, by rw [hmod, hg], rfl, ?_, fun ho j hj host' hg' => ?_⟩
    · rw [hmod, Nat.add_zero]
      cases ho : connects (.retry retry) host with
      | true => exact reconnect_open h hg ho
      | false => exact reconnect_zero h hg ho
    · obtain rfl := Nat.le_zero.1 hj
      rw [hmod, hg] at hg'
      exact Option.some.inj hg' ▸ ho
  | succ left ih =>
    intro retry c g h
    obtain ⟨host, hg⟩ := h.exists_host
    have hmod : (g + 2 * 0) % c.hosts.length = g := Nat.mod_eq_of_lt h.lt
    cases ho : connects (.retry retry) host with
    | true =>
      refine ⟨0, Nat.zero_le _, host, true, by rw [hmod, hg], ho, ?_, fun h0 => by cases h0⟩
      rw [hmod]
      exact reconnect_open h hg ho
    | false =>
      have hstride : ∀ k, ((g + 2) % c.hosts.length + 2 * k) % c.hosts.length =
          (g + 2 * (k + 1)) % c.hosts.length := by
        intro k
        rw [Nat.mod_add_mod, Nat.mul_succ, Nat.add_assoc, Nat.add_comm 2]
      have hretry : ∀ k, retry + 1 + k = retry + (k + 1) := fun k => by omega
      have hnext : (c.withFollower ((g + 2) % c.hosts.length) host false).FollowerAt
          ((g + 2) % c.hosts.length) := ⟨rfl, h.next.lt⟩
      obtain ⟨k, hk, host', b, hg', hb, hrun, htried⟩ := ih (retry + 1) hnext
      simp only [withFollower, hstride, hretry] at hg' hb hrun htried
      refine ⟨k + 1, Nat.succ_le_succ hk, host', b, hg', hb, ?_, fun h0 j hj host'' hg'' => ?_⟩
      · rw [reconnect_succ h hg ho]
        exact hrun
      · cases j with
        | zero =>
          rw [hmod, hg] at hg''
          exact Option.some.inj hg'' ▸ ho
        | succ j => exact htried h0 j (Nat.le_of_succ_le_succ hj) host'' hg''

end Reconnect

theorem connectFollower_spec (h : c.FollowerAt g) (connects : Attempt → Str → Bool) :
    ∃ c' g', c.connectFollower connects = .ok (c', c'.followerOpen) ∧ c'.FollowerAt g' ∧
      c' = { c with followerId := c'.followerId, followerSock := c'.followerSock } := by
  cases ho : c.followerOpen with
  | true =>
    refine ⟨c, g, ?_, h, rfl⟩
    rw [connectFollower, ho]
    exact congrArg (fun b => Except.ok (c, b)) ho
  | false =>
    obtain ⟨k, -, host, b, -, -, hrun, -⟩ := reconnect_spec connects c.hosts.length 0 h
    refine ⟨c.withFollower ((g + 2 * k) % c.hosts.length) host b, _, ?_,
      ⟨rfl, Nat.mod_lt _ (Nat.zero_lt_of_lt h.lt)⟩, rfl⟩
    rw [connectFollower, ho]
    exact congrArg (· >>= fun c => pure (c, c.followerOpen)) hrun

/-- Every second host from the first is tried: all of an odd number, and those of the same parity of
an even one. -/
theorem tried_iff {n i : ℕ} (hg : g < n) (hi : i < n) :
    (∃ k ≤ n, (g + 2 * k) % n = i) ↔ n % 2 = 1 ∨ i % 2 = g % 2 := by
  have hgcd : i ≡ g [MOD Nat.gcd 2 n] ↔ n % 2 = 1 ∨ i % 2 = g % 2 := by
    rcases Nat.mod_two_eq_zero_or_one n with hn | hn
    · have h2 : Nat.gcd 2 n = 2 := Nat.gcd_eq_left (Nat.dvd_of_mod_eq_zero hn)
      rw [h2, Nat.ModEq]
      omega
    · have h1 : Nat.gcd 2 n = 1 := by
        rw [Nat.gcd_rec, hn]
        rfl
      rw [h1]
      exact iff_of_true Nat.modEq_one (.inl hn)
  rw [← hgcd]
  constructor
  · rintro ⟨k, -, rfl⟩
    exact Strides.modEq k
  · intro h
    obtain ⟨k, hk, hki⟩ := Strides.exists_of_modEq (Nat.zero_lt_of_lt hg) hi h
    exact ⟨k, hk.le, hki⟩

/-- With the same hosts reachable all along, the follower is found if it is tried. -/
theorem connectFollower_iff (h : c.FollowerAt g) (ho : c.followerOpen = false)
    (reachable : Str → Bool) :
    ∃ c' b, c.connectFollower (fun _ => reachable) = .ok (c', b) ∧
      (1 ≤ c'.followerId ∧ c'.followerId ≤ c'.hosts.length) ∧
      ((b = true ∧ ∃ host, c'.followerSock = some ⟨host, true⟩ ∧ reachable host = true ∧
          c.hosts[(c'.followerId - 1).toNat]? = some host) ↔
        ∃ (i : ℕ) (host : Str), c.hosts[i]? = some host ∧ reachable host = true ∧
          (c.hosts.length % 2 = 1 ∨ ((i : ℤ) + 1) % 2 = c.followerId % 2)) := by
  obtain ⟨k, hk, host, b, hg, hb, hrun, htried⟩ :=
    reconnect_spec (fun _ => reachable) c.hosts.length 0 h
  have hlt : (g + 2 * k) % c.hosts.length < c.hosts.length := Nat.mod_lt _ (Nat.zero_lt_of_lt h.lt)
  have hparity : ∀ i : ℕ, ((i : ℤ) + 1) % 2 = c.followerId % 2 ↔ i % 2 = g % 2 := by
    intro i
    rw [h.id]
    omega
  simp only [hparity]
  refine ⟨c.withFollower ((g + 2 * k) % c.hosts.length) host b, b, ?_, ⟨?_, ?_⟩, ?_⟩
  · rw [connectFollower, ho]
    exact congrArg (· >>= fun c => pure (c, c.followerOpen)) hrun
  · simp only [withFollower]
    omega
  · simp only [withFollower]
    omega
  · constructor
    · rintro ⟨rfl, -⟩
      exact ⟨_, host, hg, hb, (tried_iff h.lt hlt).1 ⟨k, hk, rfl⟩⟩
    · rintro ⟨i, host', hi, hr, hparity⟩
      obtain ⟨hil, -⟩ := List.getElem?_eq_some_iff.1 hi
      obtain ⟨j, hj, rfl⟩ := (tried_iff h.lt hil).2 hparity
      obtain rfl : b = true := by
        rw [← Bool.not_eq_false]
        intro h0
        rw [htried h0 j hj host' hi] at hr
        cases hr
      have hindex : ((((g + 2 * k) % c.hosts.length : ℕ) : ℤ) + 1 - 1).toNat =
          (g + 2 * k) % c.hosts.length := by omega
      refine ⟨rfl, host, rfl, hb, ?_⟩
      rw [withFollower, hindex, hg]

section Leader

variable {f : ℕ} (answers : Answers n)

/-- The client with the host at the place `f` for its leader. -/
def withLeader (c : FSClient) (f : ℕ) (host : Str) (isOpen : Bool) : FSClient :=
  { c with leaderId := f + 1, leaderSock := some ⟨host, isOpen⟩ }

theorem resetLeader_eq (hf : c.hosts[f]? = some host) (connects : Str → Bool) :
    ({ c with leaderId := f + 1 } : FSClient).resetLeader connects =
      .ok (c.withLeader f host (connects host)) := by
  have hid : (f : ℤ) + 1 - 1 = f := by omega
  have hhost : ({ c with leaderId := f + 1 } : FSClient).hostAt f = .ok host := hostAt_eq hf
  rw [resetLeader, hid, hhost]
  rfl

/-- The leader that an answer names is taken. If it is the follower, the follower is the host after
the next. -/
theorem takeLeader_spec (h : c.FollowerAt g) (hf : f < c.hosts.length) :
    ∃ c', c.takeLeader answers (f + 1) = .ok c' ∧ c'.hosts = c.hosts ∧ c'.leaderId = f + 1 ∧
      c'.leaderSock.isSome = true ∧
      c'.FollowerAt (if f = g then (g + 2) % c.hosts.length else g) := by
  obtain ⟨host, hhost⟩ : ∃ host, c.hosts[f]? = some host := ⟨_, List.getElem?_eq_getElem hf⟩
  have hiff : (f : ℤ) + 1 = c.followerId ↔ f = g := by
    rw [h.id]
    omega
  have htake : c.takeLeader answers (f + 1) =
      if (f : ℤ) + 1 = c.followerId then
        (c.withLeader f host (answers.connects .leader host)).nextFollower.bind
          fun c => c.resetFollower (answers.connects .newFollower)
      else .ok (c.withLeader f host (answers.connects .leader host)) := by
    rw [takeLeader, resetLeader_eq hhost]
    rfl
  have hat : (c.withLeader f host (answers.connects .leader host)).FollowerAt g := ⟨h.id, h.lt⟩
  rw [htake]
  simp only [hiff]
  split_ifs with hfg
  · obtain ⟨host', hhost'⟩ := hat.next.exists_host
    rw [nextFollower_eq hat]
    refine ⟨_, resetFollower_eq hat.next hhost' (answers.connects .newFollower), rfl, rfl, rfl, ?_⟩
    exact ⟨rfl, hat.next.lt⟩
  · exact ⟨_, rfl, rfl, rfl, rfl, hat⟩

end Leader

end FSClient

/-- `ConnectFollower`, from a host in the list that it is not connected to, connects to one that is
reachable just where there is one and either the number of hosts is odd or its id differs from the
follower's by an even number. Where `GetLeader` finds, of two hosts or more, that the follower is
the leader, it goes on to another host just where there are not two. In any case the ids are those
of hosts in the list. -/
theorem failover_iff {c : FSClient} (hlow : 1 ≤ c.followerId)
    (hhigh : c.followerId ≤ c.hosts.length) :
    (c.followerOpen = false → ∀ reachable : Str → Bool,
      ∃ c' b, c.connectFollower (fun _ => reachable) = .ok (c', b) ∧
        (1 ≤ c'.followerId ∧ c'.followerId ≤ c'.hosts.length) ∧
        ((b = true ∧ ∃ host, c'.followerSock = some ⟨host, true⟩ ∧ reachable host = true ∧
            c.hosts[(c'.followerId - 1).toNat]? = some host) ↔
          ∃ (i : ℕ) (host : Str), c.hosts[i]? = some host ∧ reachable host = true ∧
            (c.hosts.length % 2 = 1 ∨ ((i : ℤ) + 1) % 2 = c.followerId % 2))) ∧
    (2 ≤ c.hosts.length → c.leaderId = -1 → ∀ (n : ℕ) (answers : Answers n) resp c₁,
      c.connectFollower answers.connects = .ok (c₁, true) → answers.leader = some resp →
      resp.status = .kOK → FSClient.idOf resp.leaderId = c₁.followerId →
        ∃ c₂, c.getLeader answers = .ok (c₂, some c₂.leaderId) ∧ c₂.leaderId = c₁.followerId ∧
          (1 ≤ c₂.followerId ∧ c₂.followerId ≤ c₂.hosts.length) ∧
          (c₂.followerId ≠ c₂.leaderId ↔ c.hosts.length ≠ 2)) := by
  obtain ⟨g, h⟩ := FSClient.FollowerAt.of_range hlow hhigh
  refine ⟨FSClient.connectFollower_iff h, fun hn hleader n answers resp c₁ hrun hresp hok hid => ?_⟩
  obtain ⟨c', g', hrun', hat, hc'⟩ := FSClient.connectFollower_spec h answers.connects
  obtain ⟨rfl, -⟩ := Prod.mk.inj (Except.ok.inj (hrun.symm.trans hrun'))
  have hlen : c₁.hosts.length = c.hosts.length := by rw [hc']
  obtain ⟨c₂, htake, hhosts, hl, -, hat₂⟩ := FSClient.takeLeader_spec answers hat hat.lt
  rw [← hat.id, ← hid] at htake
  rw [if_pos rfl] at hat₂
  refine ⟨c₂, ?_, hl.trans hat.id.symm, ⟨by rw [hat₂.id]; omega, ?_⟩, ?_⟩
  · have hget : c.getLeader answers = (do
        let c ← c₁.takeLeader answers (FSClient.idOf resp.leaderId)
        return (c, some c.leaderId)) := by
      rw [FSClient.getLeader, if_pos hleader, hrun]
      simp only [hresp, hok, bind, Except.bind, if_true]
    rw [hget, htake]
    rfl
  · have := hat₂.lt
    rw [hat₂.id]
    omega
  · rw [hat₂.id, hl, hlen]
    have hlt := hat.lt
    rw [hlen] at hlt
    have hmod : (g' + 2) % c.hosts.length = g' ↔ c.hosts.length = 2 := by
      constructor
      · intro h0
        have hdvd : c.hosts.length ∣ 2 := by
          have := Nat.dvd_sub_mod (n := c.hosts.length) (g' + 2)
          rwa [h0, Nat.add_sub_cancel_left] at this
        exact Nat.le_antisymm (Nat.le_of_dvd Nat.two_pos hdvd) hn
      · intro h0
        rw [h0, Nat.add_mod_right, ← h0, Nat.mod_eq_of_lt hlt]
    rw [ne_eq, ne_eq, ← hmod, add_left_inj, Nat.cast_inj]

/-- The client of three hosts with the first for its follower. -/
def threeHosts : FSClient := ⟨[['a'], ['b'], ['c']], -1, 1, none, none⟩

/-- Of three hosts it finds the second, though it goes to the third before. -/
theorem failover_iff_three : ∃ c', threeHosts.connectFollower (fun _ host => host == ['b']) =
    .ok (c', true) ∧ ∃ host, c'.followerSock = some ⟨host, true⟩ ∧ (host == ['b']) = true := by
  have h : 1 ≤ threeHosts.followerId ∧ threeHosts.followerId ≤ threeHosts.hosts.length := by decide
  obtain ⟨c', b, hrun, -, hiff⟩ := (failover_iff h.1 h.2).1 rfl fun host => host == ['b']
  obtain ⟨rfl, host, hsock, hhost, -⟩ := hiff.2 ⟨1, ['b'], rfl, rfl, .inl rfl⟩
  exact ⟨c', hrun, host, hsock, hhost⟩

/-- The client of two hosts with the first for its follower. -/
def twoHosts : FSClient := ⟨[['a'], ['b']], -1, 1, none, none⟩

/-- Of two hosts it does not find the second, nor does it leave the first where that is the
leader. -/
theorem failover_two :
    twoHosts.connectFollower (fun _ host => host == ['b']) =
      .ok ({ twoHosts with followerSock := some ⟨['a'], false⟩ }, false) ∧
    twoHosts.getLeader
        { connects := fun _ _ => true, leader := some { leaderId := some (0 : Fin 2) } } =
      .ok ({ twoHosts with leaderId := 1, leaderSock := some ⟨['a'], true⟩,
                           followerSock := some ⟨['a'], true⟩ }, some 1) :=
  ⟨by decide +kernel, by decide +kernel⟩

end RaftFS
