import RaftFS.Proofs.Failover
import RaftFS.Proofs.Threads
import RaftFS.Proofs.Votes

/-!
# The client and its list of hosts

The leader id that `GetLeader` answers is `-1` while the node knows no leader, and the answer is a
success all the same, so that the client reads a host before the first of its list. It reads none
that is not in the list as long as the list is not empty and the answers name a leader in it
(`client_in_list`).
-/

namespace RaftFS

variable {n : ℕ}

open FSClient

/-- An answer to a write that is a success names no leader. -/
theorem answered_leaderId {G : Runs.Guard (Cluster n) (Action n)} {s : Cluster n}
    (h : (cluster n).Reach G s) (x : Fin n) : ∀ op path e resp,
      .answered op path e resp ∈ (s.node x).clients → resp.status = .kOK →
        resp.leaderId = none := by
  refine h.inv (I := fun s => ∀ op path e resp, .answered op path e resp ∈ (s.node x).clients →
    resp.status = .kOK → resp.leaderId = none) ?_ ?_
  · rintro _ ⟨env, junk, rfl⟩ op path e resp hth
    cases hth
  · intro s a s' _ hI _ hst op path e resp hth hok
    generalize hth' : (.answered op path e resp : ClientThread n) = th at hth
    cases Cluster.step_clients hst x hth with
    | same h =>
      subst hth'
      exact hI op path e resp h hok
    | @new call path' =>
      have hrefused : ∀ op',
          Node.onWrite op' path' (s.node x) = .answered op path e resp → False := by
        intro op' h
        simp only [Node.onWrite] at h
        split_ifs at h
        · cases h
          cases hok
        · cases h
          cases hok
      cases call with
      | _ => exact (hrefused _ hth'.symm).elim
    | goOn _ hs => cases hs with
      | led | built | append => cases hth'
      | noLeader | ok | timeout =>
        cases hth'
        rfl

/-- What nodes of a cluster can answer. -/
structure Answers.Given (answers : Answers n) : Prop where
  leader : ∀ resp, answers.leader = some resp → ∃ s x, (cluster n).Reach Runs.Sys.anyStep s ∧
    resp = ClientRPCService.getLeader (s.node x)
  write : ∀ resp, answers.write = some resp → ∃ s x op path e,
    (cluster n).Reach Runs.Sys.anyStep s ∧ .answered op path e resp ∈ (s.node x).clients
  list : ∀ resp, answers.list = some resp → ∃ s x dir, (cluster n).Reach Runs.Sys.anyStep s ∧
    ClientRPCService.listDir (s.node x).fs dir = some resp
  leaderList : ∀ resp, answers.leaderList = some resp → ∃ s x dir,
    (cluster n).Reach Runs.Sys.anyStep s ∧ ClientRPCService.listDir (s.node x).fs dir = some resp
  info : ∀ resp, answers.info = some resp → ∃ s x file, (cluster n).Reach Runs.Sys.anyStep s ∧
    ClientRPCService.getFileInfo (s.node x).fs file = some resp

theorem Answers.Given.write_leaderId {answers : Answers n} (h : answers.Given)
    {resp : WriteResponse n} (hw : answers.write = some resp) (hok : resp.status = .kOK) :
    resp.leaderId = none := by
  obtain ⟨s, x, op, path, e, hs, hth⟩ := h.write resp hw
  exact answered_leaderId hs x op path e resp hth hok

theorem given_getLeader {s : Cluster n} (hs : (cluster n).Reach Runs.Sys.anyStep s) (x : Fin n)
    (connects : Attempt → Str → Bool) : Answers.Given
      { connects := connects, leader := some (ClientRPCService.getLeader (s.node x)) } where
  leader resp h := ⟨s, x, hs, (Option.some.inj h).symm⟩
  write resp h := by cases h
  list resp h := by cases h
  leaderList resp h := by cases h
  info resp h := by cases h

/-- The leader that is answered is one of the hosts. -/
def Answers.LeaderIn (answers : Answers n) (hosts : List Str) : Prop :=
  ∀ resp, answers.leader = some resp → resp.status = .kOK →
    ∃ x : Fin n, resp.leaderId = some x ∧ x.val < hosts.length

namespace FSClient

variable {c c' : FSClient} {answers : Answers n} {α β : Type}

/-- The ids are those of hosts in the list, or there is no leader. -/
structure InRange (hosts : List Str) (c : FSClient) : Prop where
  hosts : c.hosts = hosts
  follower : ∃ g, c.FollowerAt g
  leader : c.leaderId = -1 ∨ ∃ f : ℕ, f < c.hosts.length ∧ c.leaderId = f + 1

/-- The list of hosts is read where there are hosts only, and what comes out is as said. -/
def Safe (P : α → Prop) : Except Fault α → Prop
  | .ok a => P a
  | .error e => e = .nullRpc

theorem Safe.bind {P : α → Prop} {Q : β → Prop} {r : Except Fault α} {f : α → Except Fault β}
    (h : Safe P r) (hf : ∀ a, P a → Safe Q (f a)) : Safe Q (r >>= f) := by
  cases r with
  | error e => exact h
  | ok a => exact hf a h

theorem Safe.map {P : α → Prop} {Q : β → Prop} {r : Except Fault α} {f : α → β} (h : Safe P r)
    (hf : ∀ a, P a → Q (f a)) : Safe Q (r.map f) := by
  cases r with
  | error e => exact h
  | ok a => exact hf a h

theorem Safe.imp {P Q : α → Prop} {r : Except Fault α} (h : Safe P r) (hf : ∀ a, P a → Q a) :
    Safe Q r := by
  cases r with
  | error e => exact h
  | ok a => exact hf a h

variable {hosts : List Str}

theorem connectFollower_safe (h : c.InRange hosts) (connects : Attempt → Str → Bool) :
    Safe (fun r => r.1.InRange hosts ∧ r.1.leaderId = c.leaderId) (c.connectFollower connects) := by
  obtain ⟨g, hg⟩ := h.follower
  obtain ⟨c', g', hrun, hat, hc'⟩ := connectFollower_spec hg connects
  have hhosts : c'.hosts = c.hosts := by rw [hc']
  have hleader : c'.leaderId = c.leaderId := by rw [hc']
  rw [hrun]
  exact ⟨⟨hhosts.trans h.hosts, ⟨g', hat⟩, by rw [hhosts, hleader]; exact h.leader⟩, hleader⟩

/-- `GetLeader` gives the id it keeps. -/
theorem getLeader_safe (h : c.InRange hosts) (hin : c.leaderId = -1 → answers.LeaderIn hosts) :
    Safe (fun r => r.1.InRange hosts ∧ ∀ l ∈ r.2, l = r.1.leaderId) (c.getLeader answers) := by
  unfold getLeader
  split_ifs with hnone
  · refine (connectFollower_safe h answers.connects).bind ?_
    rintro ⟨c₁, connected⟩ ⟨h₁, hleader⟩
    have hsame : Safe (fun r : FSClient × Option ℤ => r.1.InRange hosts ∧ ∀ l ∈ r.2,
        l = r.1.leaderId) (.ok (c₁, some c₁.leaderId)) :=
      ⟨h₁, fun l hl => (Option.some.inj hl).symm⟩
    simp only
    split_ifs
    · rcases hresp : answers.leader with _ | resp
      · exact ⟨h₁, fun l hl => by cases hl⟩
      · simp only
        split_ifs with hok
        · obtain ⟨x, hx, hlt⟩ := hin hnone resp hresp hok
          obtain ⟨g, hg⟩ := h₁.follower
          obtain ⟨c₂, htake, hhosts, hl, -, hat⟩ :=
            takeLeader_spec answers hg (f := x.val) (h₁.hosts ▸ hlt)
          have hid : idOf resp.leaderId = (x.val : ℤ) + 1 := by rw [hx]; rfl
          rw [hid, htake]
          refine ⟨⟨hhosts.trans h₁.hosts, ⟨_, hat⟩, .inr ⟨x, ?_, hl⟩⟩,
            fun l hl => (Option.some.inj hl).symm⟩
          rw [hhosts, h₁.hosts]
          exact hlt
        · exact hsame
    · exact hsame
  · exact ⟨h, fun l hl => (Option.some.inj hl).symm⟩

theorem resetLeader_safe (h : c.InRange hosts) (hne : c.leaderId ≠ -1) (connects : Str → Bool) :
    Safe (fun c' => c'.InRange hosts) (c.resetLeader connects) := by
  obtain ⟨f, hf, hid⟩ := h.leader.resolve_left hne
  have hc : c = { c with leaderId := (f : ℤ) + 1 } := by rw [← hid]
  rw [hc, resetLeader_eq (List.getElem?_eq_getElem hf)]
  exact ⟨h.hosts, h.follower.imp fun g hg => ⟨hg.id, hg.lt⟩, .inr ⟨f, hf, rfl⟩⟩

theorem askLeader_safe (h : c.InRange hosts) (hin : c.leaderId = -1 → answers.LeaderIn hosts)
    (makes : Bool) : Safe (fun r => r.1.InRange hosts ∧ ∀ resp, r.2 = .answered resp →
      answers.write = some resp) (c.askLeader answers makes) := by
  refine (getLeader_safe h hin).bind ?_
  rintro ⟨c₁, _ | l⟩ ⟨h₁, hl⟩
  · exact ⟨h₁, fun resp hr => by cases hr⟩
  · have hl : l = c₁.leaderId := hl l rfl
    simp only [hl]
    split_ifs with hnone
    · exact ⟨h₁, fun resp hr => by cases hr⟩
    · have hmake : Safe (fun c' => c'.InRange hosts) (c₁.makeLeader answers makes) := by
        unfold makeLeader
        split_ifs
        · exact resetLeader_safe h₁ hnone _
        · exact h₁
      refine hmake.bind fun c₂ h₂ => ?_
      rcases c₂.leaderSock with _ | sock
      · rfl
      · rcases hw : answers.write with _ | resp
        · exact ⟨h₂, fun resp hr => by cases hr⟩
        · refine ⟨h₂, fun resp' hr => ?_⟩
          simp only at hr
          split_ifs at hr
          rw [Asked.answered.inj hr]

theorem mkdir_safe (h : c.InRange hosts) (hin : c.leaderId = -1 → answers.LeaderIn hosts) :
    Safe (fun r => r.1.InRange hosts) (c.mkdir answers) := by
  refine (askLeader_safe h hin true).bind ?_
  rintro ⟨c₁, asked⟩ ⟨h₁, -⟩
  exact h₁

theorem rmdir_safe (h : c.InRange hosts) (hin : c.leaderId = -1 → answers.LeaderIn hosts) :
    Safe (fun r => r.1.InRange hosts) (c.rmdir answers) := mkdir_safe h hin

theorem createFile_safe (h : c.InRange hosts) (hin : c.leaderId = -1 → answers.LeaderIn hosts) :
    Safe (fun r => r.1.InRange hosts) (c.createFile answers) := by
  refine (askLeader_safe h hin false).bind ?_
  rintro ⟨c₁, asked⟩ ⟨h₁, -⟩
  exact h₁

theorem deleteFile_safe (h : c.InRange hosts) (hin : c.leaderId = -1 → answers.LeaderIn hosts)
    (hgiven : answers.Given) : Safe (fun r => r.1.InRange hosts) (c.deleteFile answers) := by
  refine (askLeader_safe h hin false).bind ?_
  rintro ⟨c₁, asked⟩ ⟨h₁, hw⟩
  simp only
  split
  · rename_i leaderId
    cases hgiven.write_leaderId (hw _ rfl) rfl
  · exact h₁

theorem listDir_safe (h : c.InRange hosts) :
    Safe (fun r => r.1.InRange hosts) (c.listDir answers) := by
  refine (connectFollower_safe h answers.connects).bind ?_
  rintro ⟨c₁, _ | _⟩ ⟨h₁, -⟩
  · exact h₁
  · simp only [Bool.not_true, Bool.false_eq_true, if_false]
    split
    · exact h₁
    · split_ifs
      · split
        · rfl
        · exact h₁
        · split_ifs
          · exact h₁
          · exact h₁
      · exact h₁

theorem getFileInfo_safe (h : c.InRange hosts) :
    Safe (fun r => r.1.InRange hosts) (c.getFileInfo answers) := by
  refine (connectFollower_safe h answers.connects).bind ?_
  rintro ⟨c₁, _ | _⟩ ⟨h₁, -⟩
  · exact h₁
  · simp only [Bool.not_true, Bool.false_eq_true, if_false]
    split
    · exact h₁
    · exact h₁

theorem checkHosts_safe {answers : ℕ → Answers n} (hin : ∀ k, (answers k).LeaderIn hosts) :
    ∀ (l : List Str) (k : ℕ) {c : FSClient}, c.InRange hosts →
      Safe (fun c' => c'.InRange hosts) (checkHosts answers l k c)
  | [], _, _, h => h
  | host :: l, k, c, h => by
    have h₁ : InRange hosts { c with
        followerSock := some ⟨host, (answers k).connects .check host⟩, leaderId := -1 } :=
      ⟨h.hosts, h.follower.imp fun g hg => ⟨hg.id, hg.lt⟩, .inl rfl⟩
    refine (getLeader_safe h₁ fun _ => hin k).bind ?_
    rintro ⟨c₂, leader⟩ ⟨h₂, -⟩
    simp only
    split_ifs
    · exact checkHosts_safe hin l (k + 1) h₂
    · exact h₂

/-- The constructor takes a follower from the list, if there is one. -/
theorem new_safe (hne : hosts ≠ []) (rand : ℕ) (hin : answers.LeaderIn hosts) :
    Safe (fun r => ∀ c ∈ r, c.InRange hosts) (FSClient.new answers hosts rand) := by
  have hpos : 0 < hosts.length := List.length_pos_iff.2 hne
  have hlt : rand % hosts.length < hosts.length := Nat.mod_lt _ hpos
  have hmod : Safe (fun r => r = ((rand % hosts.length : ℕ) : ℤ))
      ((⟨hosts, -1, 0, none, none⟩ : FSClient).modHosts rand) := by
    rw [modHosts, if_neg hpos.ne']
    rfl
  refine hmod.bind fun r hr => ?_
  have hat : FollowerAt ⟨hosts, -1, r + 1, none, none⟩ (rand % hosts.length) := ⟨by rw [hr], hlt⟩
  obtain ⟨host, hhost⟩ := hat.exists_host
  have hreset : Safe (fun c => c.InRange hosts) ((⟨hosts, -1, r + 1, none, none⟩ :
      FSClient).resetFollower (answers.connects .start)) := by
    rw [resetFollower_eq hat hhost]
    exact ⟨rfl, ⟨_, rfl, hlt⟩, .inl rfl⟩
  refine hreset.bind fun c hc => ?_
  refine (getLeader_safe hc fun _ => hin).bind ?_
  rintro ⟨c₁, _ | l⟩ ⟨h₁, hl⟩
  · exact fun c hc => by cases hc
  · have hl : l = c₁.leaderId := hl l rfl
    simp only [hl]
    split_ifs with hnone
    · obtain ⟨f, hf, hid⟩ := h₁.leader.resolve_left hnone
      have hhost : c₁.hostAt (c₁.leaderId - 1) = .ok c₁.hosts[f] := by
        rw [hid, add_sub_cancel_right]
        exact hostAt_eq (List.getElem?_eq_getElem hf)
      rw [hhost]
      exact fun c hc => Option.some.inj hc ▸ h₁
    · exact fun c hc => Option.some.inj hc ▸ h₁

end FSClient

namespace ClientCall

/-- The answers that the call is given. -/
inductive Takes : ClientCall n → Answers n → Prop
  | new {hosts : List Str} {rand : ℕ} {a : Answers n} : Takes (.new hosts rand a) a
  | mkdir {a : Answers n} : Takes (.mkdir a) a
  | rmdir {a : Answers n} : Takes (.rmdir a) a
  | createFile {a : Answers n} : Takes (.createFile a) a
  | deleteFile {a : Answers n} : Takes (.deleteFile a) a
  | listDir {a : Answers n} : Takes (.listDir a) a
  | getFileInfo {a : Answers n} : Takes (.getFileInfo a) a
  | checkLeaders {as : ℕ → Answers n} {k : ℕ} : Takes (.checkLeaders as) (as k)

/-- The answers with which the call may take the id of a leader, and the hosts. -/
inductive AsksLeader : Option FSClient → ClientCall n → List Str → Answers n → Prop
  | new {hosts : List Str} {rand : ℕ} {a : Answers n} : AsksLeader none (.new hosts rand a) hosts a
  | mkdir {c : FSClient} {a : Answers n} (h : c.leaderId = -1) :
    AsksLeader (some c) (.mkdir a) c.hosts a
  | rmdir {c : FSClient} {a : Answers n} (h : c.leaderId = -1) :
    AsksLeader (some c) (.rmdir a) c.hosts a
  | createFile {c : FSClient} {a : Answers n} (h : c.leaderId = -1) :
    AsksLeader (some c) (.createFile a) c.hosts a
  | deleteFile {c : FSClient} {a : Answers n} (h : c.leaderId = -1) :
    AsksLeader (some c) (.deleteFile a) c.hosts a
  | checkLeaders {c : FSClient} {as : ℕ → Answers n} {k : ℕ} :
    AsksLeader (some c) (.checkLeaders as) c.hosts (as k)

/-- What nodes can answer. -/
def Given (_ : Except Fault (Option FSClient)) (call : ClientCall n) : Prop :=
  ∀ a, call.Takes a → a.Given

/-- There are hosts, and where the call may take a leader it is one of them. -/
def LeaderKnown (s : Except Fault (Option FSClient)) (call : ClientCall n) : Prop :=
  ∀ c hosts a, s = .ok c → AsksLeader c call hosts a → hosts ≠ [] ∧ a.LeaderIn hosts

/-- A call leaves the client's ids in range. -/
theorem run_safe {c : Option FSClient} {call : ClientCall n}
    {r : Except Fault (Option FSClient)} (hrun : call.run c = some r)
    (h : ∀ c' ∈ c, c'.InRange c'.hosts) (hgiven : ∀ a, call.Takes a → a.Given)
    (hknown : ∀ hosts a, AsksLeader c call hosts a → hosts ≠ [] ∧ a.LeaderIn hosts) :
    Safe (fun c' => ∀ c ∈ c', c.InRange c.hosts) r := by
  have hsome : ∀ {hosts : List Str} {c : FSClient}, c.InRange hosts →
      ∀ c' ∈ some c, c'.InRange c'.hosts := by
    intro hosts c h c' hc'
    obtain rfl := Option.some.inj hc'
    rw [h.hosts]
    exact h
  unfold run at hrun
  split at hrun
  · obtain rfl := Option.some.inj hrun
    obtain ⟨hne, hin⟩ := hknown _ _ .new
    refine (new_safe hne _ hin).imp fun c' hc' c hc => ?_
    rw [(hc' c hc).hosts]
    exact hc' c hc
  · obtain rfl := Option.some.inj hrun
    exact (mkdir_safe (h _ rfl) fun h0 => (hknown _ _ (.mkdir h0)).2).map fun _ h => hsome h
  · obtain rfl := Option.some.inj hrun
    exact (rmdir_safe (h _ rfl) fun h0 => (hknown _ _ (.rmdir h0)).2).map fun _ h => hsome h
  · obtain rfl := Option.some.inj hrun
    exact (createFile_safe (h _ rfl) fun h0 => (hknown _ _ (.createFile h0)).2).map
      fun _ h => hsome h
  · obtain rfl := Option.some.inj hrun
    exact (deleteFile_safe (h _ rfl) (fun h0 => (hknown _ _ (.deleteFile h0)).2)
      (hgiven _ .deleteFile)).map fun _ h => hsome h
  · obtain rfl := Option.some.inj hrun
    exact (listDir_safe (h _ rfl)).map fun _ h => hsome h
  · obtain rfl := Option.some.inj hrun
    exact (getFileInfo_safe (h _ rfl)).map fun _ h => hsome h
  · obtain rfl := Option.some.inj hrun
    exact (checkHosts_safe (fun k => (hknown _ _ (.checkLeaders (k := k))).2) _ 0 (h _ rfl)).map
      fun _ h => hsome h
  · obtain rfl := Option.some.inj hrun
    obtain ⟨-, hf, hl⟩ := h _ rfl
    exact hsome ⟨rfl, hf.imp fun g hg => ⟨hg.id, hg.lt⟩, hl⟩
  · obtain rfl := Option.some.inj hrun
    obtain ⟨-, hf, hl⟩ := h _ rfl
    exact hsome ⟨rfl, hf.imp fun g hg => ⟨hg.id, hg.lt⟩, hl⟩
  · cases hrun

end ClientCall

/-- With answers that nodes can give, the client reads no host that is not in the list, and takes no
remainder by zero, as long as there are hosts and each leader that an answer names is one of them.
Its ids stay those of hosts in the list, and there may be no leader. -/
theorem client_in_list {s : Except Fault (Option FSClient)}
    (h : (client n).Reach (fun s call => call.Given s ∧ call.LeaderKnown s) s) :
    s ≠ .error .outOfRange ∧ s ≠ .error .division ∧
      ∀ c, s = .ok (some c) → (1 ≤ c.followerId ∧ c.followerId ≤ c.hosts.length) ∧
        (c.leaderId = -1 ∨ 1 ≤ c.leaderId ∧ c.leaderId ≤ c.hosts.length) := by
  have hsafe : Safe (fun c' => ∀ c ∈ c', c.InRange c.hosts) s := by
    refine h.inv ?_ ?_
    · rintro _ rfl c hc
      cases hc
    · rintro s call s' - hI ⟨hgiven, hknown⟩ hst
      cases s with
      | error e => cases hst
      | ok c => exact ClientCall.run_safe hst hI hgiven fun hosts a => hknown c hosts a rfl
  cases s with
  | error e =>
    obtain rfl : e = .nullRpc := hsafe
    exact ⟨by decide, by decide, fun c hc => by cases hc⟩
  | ok c =>
    refine ⟨fun h0 => (by cases h0), fun h0 => (by cases h0), fun c' hc' => ?_⟩
    obtain ⟨-, ⟨g, hg, hlt⟩, hl⟩ := hsafe c' (Except.ok.inj hc')
    refine ⟨⟨by omega, by omega⟩, hl.imp_right ?_⟩
    rintro ⟨f, hf, hid⟩
    exact ⟨by omega, by omega⟩

/-- What a new client of three hosts is answered once `x` is elected. -/
def elected (x : Fin 3) : ClientCall 3 := .new [['a'], ['b'], ['c']] 1
  { connects := fun _ _ => true, leader := some { leaderId := some x } }

/-- The client takes node `0` for the leader. -/
theorem client_in_list_elected : ∃ c, (client 3).step (.ok none) (elected 0) = some (.ok (some c)) ∧
    1 ≤ c.followerId ∧ c.followerId ≤ c.hosts.length ∧ c.leaderId = 1 := by
  let s := (cluster 3).run Runs.Sys.anyStep start3 (elect 0 1 0)
  have hs : (cluster 3).Reach Runs.Sys.anyStep s :=
    Runs.Sys.reach_run reach_start3 (by decide +kernel)
  have hleader : ClientRPCService.getLeader (s.node 0) = { leaderId := some 0 } := by decide +kernel
  obtain ⟨c, hstep, hid⟩ : ∃ c, (client 3).step (.ok none) (elected 0) = some (.ok (some c)) ∧
      c.leaderId = 1 := ⟨_, rfl, by decide +kernel⟩
  have hgiven : (elected 0).Given (.ok none) := by
    intro a ha
    cases ha
    exact hleader ▸ given_getLeader hs 0 fun _ _ => true
  have hknown : (elected 0).LeaderKnown (.ok none) := by
    intro c hosts a hc ha
    obtain rfl := Except.ok.inj hc
    cases ha
    refine ⟨List.cons_ne_nil _ _, fun resp hresp _ => ?_⟩
    obtain rfl := Option.some.inj hresp
    exact ⟨0, rfl, by decide⟩
  obtain ⟨-, -, hrange⟩ := client_in_list (.step (.init rfl) ⟨hgiven, hknown⟩ hstep)
  exact ⟨c, hstep, (hrange c rfl).1.1, (hrange c rfl).1.2, hid⟩

/-- A node that knows no leader is asked for one, and the host before the first is read. With no
hosts at all, a remainder is taken by zero. -/
theorem client_no_leader : (client 3).Reach (fun s call => call.Given s) (.error .outOfRange) ∧
    (client 3).Reach (fun s call => call.Given s) (.error .division) := by
  have hgiven : ∀ hosts, ClientCall.Given (n := 3) (.ok none) (.new hosts 0
      { connects := fun _ _ => true, leader := some { leaderId := none } }) := by
    intro hosts a ha
    cases ha
    exact given_getLeader reach_start3 0 fun _ _ => true
  exact ⟨.step (.init rfl) (hgiven [['a'], ['b'], ['c']]) rfl, .step (.init rfl) (hgiven []) rfl⟩

end RaftFS
