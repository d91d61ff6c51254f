import RaftFS.Proofs.HostList

/-!
# The leader that a client keeps

A client asks for the leader only while it has none, and `CheckLeaders` alone makes it forget. The
answers of the nodes name no other one to go on to where a write succeeds, and what else they name
is not looked at. So a client keeps the leader it has, whoever is elected after it, and once its
connection there is lost no write is answered any more (`client_keeps_leader`).
-/

namespace RaftFS

variable {n : ℕ}

namespace FSClient

section Gives

variable {α β : Type} {P : α → Prop} {Q : β → Prop}

/-- What comes out, if anything does, is as said. -/
def Gives (P : α → Prop) (r : Except Fault α) : Prop := ∀ a, r = .ok a → P a

theorem Gives.pure {a : α} (h : P a) : Gives P (.ok a) := fun _ ha => Except.ok.inj ha ▸ h

theorem Gives.bind {r : Except Fault α} {f : α → Except Fault β} (h : Gives P r)
    (hf : ∀ a, P a → Gives Q (f a)) : Gives Q (r >>= f) := by
  cases r with
  | error e => exact fun b hb => by cases hb
  | ok a => exact hf a (h a rfl)

theorem Gives.map {r : Except Fault α} {f : α → β} (h : Gives P r) (hf : ∀ a, P a → Q (f a)) :
    Gives Q (r.map f) := by
  cases r with
  | error e => exact fun b hb => by cases hb
  | ok a => exact .pure (hf a (h a rfl))

theorem Gives.bind_any {r : Except Fault α} {f : α → Except Fault β} (hf : ∀ a, Gives Q (f a)) :
    Gives Q (r >>= f) := Gives.bind (P := fun _ => True) (fun _ _ => trivial) fun a _ => hf a

end Gives

variable {c c' : FSClient} {answers : Answers n}

/-- There is a socket to the leader and it is open. -/
def leaderOpen (c : FSClient) : Bool := c.leaderSock.any Sock.isOpen

/-- The leader and the connection to it are as they were. -/
def SameLeader (c c' : FSClient) : Prop :=
  c'.leaderId = c.leaderId ∧ c'.leaderSock = c.leaderSock

theorem SameLeader.trans {c'' : FSClient} (h : c.SameLeader c') (h' : c'.SameLeader c'') :
    c.SameLeader c'' := ⟨h'.1.trans h.1, h'.2.trans h.2⟩

section Follower

theorem resetFollower_leader (c : FSClient) (connects : Str → Bool) :
    Gives c.SameLeader (c.resetFollower connects) :=
  .bind_any fun _ => .pure ⟨rfl, rfl⟩

theorem nextFollower_leader (c : FSClient) : Gives c.SameLeader c.nextFollower :=
  .bind_any fun _ => .pure ⟨rfl, rfl⟩

theorem reconnect_leader (connects : Attempt → Str → Bool) :
    ∀ (left retry : ℕ) (c : FSClient), Gives c.SameLeader (reconnect connects left retry c)
  | 0, retry, c => by
    refine (c.resetFollower_leader _).bind fun c₁ h₁ => ?_
    split_ifs
    · exact .pure h₁
    · exact .pure h₁
  | left + 1, retry, c => by
    refine (c.resetFollower_leader _).bind fun c₁ h₁ => ?_
    split_ifs
    · exact .pure h₁
    · refine c₁.nextFollower_leader.bind fun c₂ h₂ => ?_
      exact fun c₃ h₃ => (h₁.trans h₂).trans (reconnect_leader connects left _ c₂ c₃ h₃)

theorem connectFollower_leader (c : FSClient) (connects : Attempt → Str → Bool) :
    Gives (fun r => c.SameLeader r.1) (c.connectFollower connects) := by
  rw [connectFollower]
  split_ifs
  · exact (reconnect_leader connects _ _ c).bind fun c₁ h₁ => .pure h₁
  · exact .pure ⟨rfl, rfl⟩

theorem listDir_leader (c : FSClient) (answers : Answers n) :
    Gives (fun r => c.SameLeader r.1) (c.listDir answers) := by
  refine (c.connectFollower_leader answers.connects).bind ?_
  rintro ⟨c₁, connected⟩ h₁
  simp only
  split_ifs
  · exact .pure h₁
  · split
    · exact .pure h₁
    · split_ifs
      · split
        · exact fun _ h => by cases h
        · exact .pure h₁
        · split_ifs
          · exact .pure h₁
          · exact .pure h₁
      · exact .pure h₁

theorem getFileInfo_leader (c : FSClient) (answers : Answers n) :
    Gives (fun r => c.SameLeader r.1) (c.getFileInfo answers) := by
  refine (c.connectFollower_leader answers.connects).bind ?_
  rintro ⟨c₁, connected⟩ h₁
  simp only
  split_ifs
  · exact .pure h₁
  · split
    · exact .pure h₁
    · exact .pure h₁

end Follower

section Leader

/-- A client that has a leader has had a socket made for it. -/
def HasSock (c : FSClient) : Prop := c.leaderId ≠ -1 → c.leaderSock.isSome = true

theorem HasSock.same (h : c.HasSock) (hc : c.SameLeader c') : c'.HasSock := by
  rw [HasSock, hc.1, hc.2]
  exact h

theorem resetLeader_hasSock (c : FSClient) (connects : Str → Bool) :
    Gives HasSock (c.resetLeader connects) :=
  .bind_any fun _ => .pure fun _ => rfl

theorem takeLeader_hasSock (c : FSClient) (answers : Answers n) (id : ℤ) :
    Gives HasSock (c.takeLeader answers id) := by
  refine (resetLeader_hasSock _ _).bind fun c₁ h₁ => ?_
  split_ifs
  · refine c₁.nextFollower_leader.bind fun c₂ h₂ => ?_
    exact fun c₃ h₃ => h₁.same (h₂.trans (c₂.resetFollower_leader _ c₃ h₃))
  · exact .pure h₁

theorem getLeader_hasSock (h : c.HasSock) (answers : Answers n) :
    Gives (fun r => r.1.HasSock) (c.getLeader answers) := by
  rw [getLeader]
  split_ifs
  · refine (c.connectFollower_leader answers.connects).bind ?_
    rintro ⟨c₁, connected⟩ h₁
    simp only
    split_ifs
    · split
      · exact .pure (h.same h₁)
      · split_ifs
        · exact (c₁.takeLeader_hasSock answers _).bind fun c₂ h₂ => .pure h₂
        · exact .pure (h.same h₁)
    · exact .pure (h.same h₁)
  · exact .pure h

theorem askLeader_hasSock (h : c.HasSock) (answers : Answers n) (makes : Bool) :
    Gives (fun r => r.1.HasSock) (c.askLeader answers makes) := by
  refine (getLeader_hasSock h answers).bind ?_
  rintro ⟨c₁, _ | l⟩ h₁
  · exact .pure h₁
  · simp only
    split_ifs
    · exact .pure h₁
    · have hmake : Gives HasSock (c₁.makeLeader answers makes) := by
        rw [makeLeader]
        split_ifs
        · exact c₁.resetLeader_hasSock _
        · exact .pure h₁
      refine hmake.bind fun c₂ h₂ => ?_
      split
      · exact fun _ h => by cases h
      · split
        · exact .pure h₂
        · exact .pure h₂

theorem mkdir_hasSock (h : c.HasSock) (answers : Answers n) :
    Gives (fun r => r.1.HasSock) (c.mkdir answers) :=
  (askLeader_hasSock h answers true).bind fun _ h₁ => .pure h₁

theorem rmdir_hasSock (h : c.HasSock) (answers : Answers n) :
    Gives (fun r => r.1.HasSock) (c.rmdir answers) := mkdir_hasSock h answers

theorem createFile_hasSock (h : c.HasSock) (answers : Answers n) :
    Gives (fun r => r.1.HasSock) (c.createFile answers) :=
  (askLeader_hasSock h answers false).bind fun _ h₁ => .pure h₁

theorem deleteFile_hasSock (h : c.HasSock) (answers : Answers n) :
    Gives (fun r => r.1.HasSock) (c.deleteFile answers) := by
  refine (askLeader_hasSock h answers false).bind ?_
  rintro ⟨c₁, asked⟩ h₁
  simp only
  split
  · split_ifs
    · exact (resetLeader_hasSock _ _).bind fun c₂ h₂ => .pure h₂
    · exact .pure h₁
  · exact .pure h₁

theorem checkHosts_hasSock (answers : ℕ → Answers n) :
    ∀ (l : List Str) (k : ℕ) {c : FSClient}, c.HasSock → Gives HasSock (checkHosts answers l k c)
  | [], _, _, h => .pure h
  | host :: l, k, c, h => by
    refine (getLeader_hasSock (fun h0 => absurd rfl h0) (answers k)).bind ?_
    rintro ⟨c₁, leader⟩ h₁
    simp only
    split_ifs
    · exact checkHosts_hasSock answers l (k + 1) h₁
    · exact .pure h₁

theorem new_hasSock (answers : Answers n) (hosts : List Str) (rand : ℕ) :
    Gives (fun r => ∀ c ∈ r, HasSock c) (FSClient.new answers hosts rand) := by
  refine .bind_any fun r => ?_
  refine (resetFollower_leader _ _).bind fun c₁ h₁ => ?_
  refine (getLeader_hasSock (HasSock.same (fun h0 => absurd rfl h0) h₁) answers).bind ?_
  rintro ⟨c₂, _ | l⟩ h₂
  · exact .pure fun c hc => by cases hc
  · have hout : ∀ c ∈ some c₂, HasSock c := fun c hc => Option.some.inj hc ▸ h₂
    simp only
    split_ifs
    · exact .bind_any fun _ => .pure hout
    · exact .pure hout

end Leader

section Write

variable {sock : Sock}

theorem askLeader_of_leader (hid : c.leaderId ≠ -1) (hsock : c.leaderSock = some sock)
    (answers : Answers n) (makes : Bool) : c.askLeader answers makes = .ok (c,
      match answers.write with
      | none => .commError
      | some resp => if sock.isOpen then .answered resp else .commError) := by
  have hget : c.getLeader answers = .ok (c, some c.leaderId) := by
    rw [getLeader, if_neg hid]
    rfl
  have hmake : c.makeLeader answers makes = .ok c := by
    rw [makeLeader, hsock]
    simp
  rw [askLeader, hget]
  simp only [bind, Except.bind, if_neg hid, hmake, hsock]
  cases answers.write with
  | none => rfl
  | some resp => rfl

theorem mkdir_same (hid : c.leaderId ≠ -1) (hsock : c.leaderSock = some sock)
    (answers : Answers n) : Gives (fun r => c.SameLeader r.1) (c.mkdir answers) := by
  rw [mkdir, askLeader_of_leader hid hsock]
  exact .pure ⟨rfl, rfl⟩

theorem rmdir_same (hid : c.leaderId ≠ -1) (hsock : c.leaderSock = some sock)
    (answers : Answers n) : Gives (fun r => c.SameLeader r.1) (c.rmdir answers) :=
  mkdir_same hid hsock answers

theorem createFile_same (hid : c.leaderId ≠ -1) (hsock : c.leaderSock = some sock)
    (answers : Answers n) : Gives (fun r => c.SameLeader r.1) (c.createFile answers) := by
  rw [createFile, askLeader_of_leader hid hsock]
  exact .pure ⟨rfl, rfl⟩

theorem deleteFile_same (hid : c.leaderId ≠ -1) (hsock : c.leaderSock = some sock)
    (hgiven : answers.Given) : Gives (fun r => c.SameLeader r.1) (c.deleteFile answers) := by
  rw [deleteFile, askLeader_of_leader hid hsock]
  simp only [bind, Except.bind]
  rcases hw : answers.write with _ | ⟨status, leaderId⟩
  · exact .pure ⟨rfl, rfl⟩
  · cases hopen : sock.isOpen with
    | false => exact .pure ⟨rfl, rfl⟩
    | true =>
      simp only [if_true]
      split
      · rename_i hanswered
        cases Asked.answered.inj hanswered
        cases hgiven.write_leaderId hw rfl
      · exact .pure ⟨rfl, rfl⟩

/-- What each of the four writes gives. -/
def writes (answers : Answers n) (c : FSClient) : List (Except Fault (FSClient × Option Status)) :=
  [c.mkdir answers, c.rmdir answers, c.createFile answers, c.deleteFile answers]

/-- Where the connection is lost no write is answered. -/
theorem writes_lost (hid : c.leaderId ≠ -1) (hsock : c.leaderSock = some sock)
    (hopen : sock.isOpen = false) (answers : Answers n) :
    ∀ r ∈ c.writes answers, r = .ok (c, some .kCommError) := by
  have hask : ∀ makes, c.askLeader answers makes = .ok (c, .commError) := by
    intro makes
    rw [askLeader_of_leader hid hsock, hopen]
    split
    · rfl
    · rfl
  intro r hr
  simp only [writes, mkdir, rmdir, createFile, deleteFile, hask, List.mem_cons,
    List.not_mem_nil, or_false] at hr
  rcases hr with rfl | rfl | rfl | rfl
  · rfl
  · rfl
  · rfl
  · rfl

end Write

end FSClient

open FSClient

namespace ClientCall

/-- A call leaves a client that has a leader with a socket made for it. -/
theorem run_hasSock {call : ClientCall n} {c : Option FSClient}
    {r : Except Fault (Option FSClient)} (hrun : call.run c = some r) (h : ∀ c' ∈ c, c'.HasSock) :
    Gives (fun c' => ∀ c ∈ c', c.HasSock) r := by
  have hsome : ∀ {c : FSClient}, c.HasSock → ∀ c' ∈ some c, c'.HasSock :=
    fun h c' hc' => Option.some.inj hc' ▸ h
  unfold run at hrun
  split at hrun
  · obtain rfl := Option.some.inj hrun
    exact new_hasSock _ _ _
  · obtain rfl := Option.some.inj hrun
    exact (mkdir_hasSock (h _ rfl) _).map fun _ => hsome
  · obtain rfl := Option.some.inj hrun
    exact (rmdir_hasSock (h _ rfl) _).map fun _ => hsome
  · obtain rfl := Option.some.inj hrun
    exact (createFile_hasSock (h _ rfl) _).map fun _ => hsome
  · obtain rfl := Option.some.inj hrun
    exact (deleteFile_hasSock (h _ rfl) _).map fun _ => hsome
  · obtain rfl := Option.some.inj hrun
    exact (listDir_leader _ _).map fun _ hc => hsome ((h _ rfl).same hc)
  · obtain rfl := Option.some.inj hrun
    exact (getFileInfo_leader _ _).map fun _ hc => hsome ((h _ rfl).same hc)
  · obtain rfl := Option.some.inj hrun
    exact (checkHosts_hasSock _ _ 0 (h _ rfl)).map fun _ => hsome
  · obtain rfl := Option.some.inj hrun
    refine .pure (hsome fun h0 => ?_)
    rw [Option.isSome_map]
    exact h _ rfl h0
  · obtain rfl := Option.some.inj hrun
    exact .pure (hsome ((h _ rfl).same ⟨rfl, rfl⟩))
  · cases hrun

/-- What the program does once it has a client: all but to call `CheckLeaders`, with what nodes can
answer. -/
def Plain (s : Except Fault (Option FSClient)) (call : ClientCall n) : Prop :=
  call.Given s ∧ ∀ answers, call ≠ .checkLeaders answers

end ClientCall

/-- The leader is the same host, and the client does not connect to it again. -/
def FSClient.KeepsLeader (c c' : FSClient) : Prop :=
  c'.leaderId = c.leaderId ∧ c'.leaderSock.map Sock.host = c.leaderSock.map Sock.host ∧
    (c.leaderOpen = false → c'.leaderOpen = false)

variable {c c' : FSClient}

theorem FSClient.SameLeader.keeps (h : c.SameLeader c') : c.KeepsLeader c' :=
  ⟨h.1, by rw [h.2], fun hc => by rw [leaderOpen, h.2]; exact hc⟩

theorem FSClient.KeepsLeader.trans {c'' : FSClient} (h : c.KeepsLeader c')
    (h' : c'.KeepsLeader c'') : c.KeepsLeader c'' :=
  ⟨h'.1.trans h.1, h'.2.1.trans h.2.1, fun hc => h'.2.2 (h.2.2 hc)⟩

theorem FSClient.KeepsLeader.sock (h : c.KeepsLeader c') (hid : c.leaderId ≠ -1)
    (hs : c.HasSock) : ∃ sock, c'.leaderSock = some sock := by
  have hmap := congrArg Option.isSome h.2.1
  rw [Option.isSome_map, Option.isSome_map] at hmap
  exact Option.isSome_iff_exists.1 (hmap.trans (hs hid))

/-- Each call keeps the leader that the client has. -/
theorem ClientCall.run_keeps {call : ClientCall n} {sock : Sock}
    {r : Except Fault (Option FSClient)} (hid : c.leaderId ≠ -1) (hsock : c.leaderSock = some sock)
    (hplain : call.Plain (.ok (some c))) (hrun : call.run (some c) = some r) :
    Gives (fun c' => ∃ d, c' = some d ∧ c.KeepsLeader d) r := by
  have hsome : ∀ {c' : FSClient}, c.SameLeader c' → ∃ d, some c' = some d ∧ c.KeepsLeader d :=
    fun h => ⟨_, rfl, h.keeps⟩
  cases call with
  | new hosts rand answers => cases hrun
  | mkdir answers =>
    obtain rfl := Option.some.inj hrun
    exact (mkdir_same hid hsock answers).map fun _ => hsome
  | rmdir answers =>
    obtain rfl := Option.some.inj hrun
    exact (rmdir_same hid hsock answers).map fun _ => hsome
  | createFile answers =>
    obtain rfl := Option.some.inj hrun
    exact (createFile_same hid hsock answers).map fun _ => hsome
  | deleteFile answers =>
    obtain rfl := Option.some.inj hrun
    exact (deleteFile_same hid hsock (hplain.1 _ .deleteFile)).map fun _ => hsome
  | listDir answers =>
    obtain rfl := Option.some.inj hrun
    exact (listDir_leader c answers).map fun _ => hsome
  | getFileInfo answers =>
    obtain rfl := Option.some.inj hrun
    exact (getFileInfo_leader c answers).map fun _ => hsome
  | checkLeaders answers => exact absurd rfl (hplain.2 answers)
  | leaderLost =>
    obtain rfl := Option.some.inj hrun
    refine .pure ⟨_, rfl, rfl, ?_, fun _ => ?_⟩
    · rw [Option.map_map]
      rfl
    · simp only [leaderOpen, hsock, Option.map_some, Option.any_some]
  | followerLost =>
    obtain rfl := Option.some.inj hrun
    exact .pure (hsome ⟨rfl, rfl⟩)

/-- A client that has a leader keeps it, whatever the nodes answer, until `CheckLeaders` is called.
Where the connection to it is lost, no write is answered any more. -/
theorem client_keeps_leader (hc : (client n).Reach Runs.Sys.anyStep (.ok (some c)))
    (hid : c.leaderId ≠ -1)
    (h : (client n).Later (fun s call => call.Plain s) (.ok (some c)) (.ok (some c'))) :
    c'.leaderId = c.leaderId ∧
      c'.leaderSock.map Sock.host = c.leaderSock.map Sock.host ∧
      (c.leaderOpen = false → ∀ answers : Answers n, ∀ r ∈ c'.writes answers,
        r = .ok (c', some .kCommError)) := by
  have hs : c.HasSock := by
    have hinv : Gives (fun c' => ∀ c ∈ c', c.HasSock) (.ok (some c)) := by
      refine hc.inv (I := Gives fun c' => ∀ c ∈ c', HasSock c) ?_ ?_
      · rintro _ rfl
        exact .pure fun c hc => by cases hc
      · rintro (e | d) call s' - hI - hst
        · cases hst
        · exact ClientCall.run_hasSock hst (hI d rfl)
    exact hinv _ rfl c rfl
  have hkeeps : Gives (fun o => ∃ d, o = some d ∧ c.KeepsLeader d) (.ok (some c')) := by
    refine h.inv (I := Gives fun o => ∃ d, o = some d ∧ c.KeepsLeader d) ?_ ?_
    · exact .pure ⟨c, rfl, SameLeader.keeps ⟨rfl, rfl⟩⟩
    · rintro (e | d) call s' hI hplain hst
      · cases hst
      · obtain ⟨d, rfl, hd⟩ := hI d rfl
        obtain ⟨sock, hsock⟩ := hd.sock hid hs
        have hrun := ClientCall.run_keeps (fun h0 => hid (hd.1.symm.trans h0)) hsock hplain hst
        rintro o ho
        obtain ⟨d', rfl, hd'⟩ := hrun o ho
        exact ⟨d', rfl, hd.trans hd'⟩
  obtain ⟨d, hd, hk⟩ := hkeeps _ rfl
  obtain rfl := Option.some.inj hd
  obtain ⟨sock, hsock⟩ := hk.sock hid hs
  refine ⟨hk.1, hk.2.1, fun hlost => writes_lost (fun h0 => hid (hk.1.symm.trans h0)) hsock ?_⟩
  have hopen := hk.2.2 hlost
  rw [leaderOpen, hsock] at hopen
  exact hopen

theorem given_silent (connects : Attempt → Str → Bool) :
    Answers.Given ({ connects := connects } : Answers n) where
  leader resp h := by cases h
  write resp h := by cases h
  list resp h := by cases h
  leaderList resp h := by cases h
  info resp h := by cases h

/-- A client of three hosts loses its leader and goes on to create a file. -/
theorem client_keeps_leader_lost : ∃ c : FSClient,
    (client 3).Reach Runs.Sys.anyStep (.ok (some c)) ∧ c.leaderId = 1 ∧
      ∀ answers : Answers 3, c.mkdir answers = .ok (c, some .kCommError) := by
  obtain ⟨c, hnew, hid, hsock⟩ : ∃ c : FSClient,
      (client 3).step (.ok none) (elected 0) = some (.ok (some c)) ∧ c.leaderId = 1 ∧
      c.leaderSock = some ⟨['a'], true⟩ := ⟨_, rfl, by decide +kernel, by decide +kernel⟩
  let lost : FSClient := { c with leaderSock := some ⟨['a'], false⟩ }
  have hne : lost.leaderId ≠ -1 := by
    rw [show lost.leaderId = 1 from hid]
    decide
  have hlost : (client 3).step (.ok (some c)) .leaderLost = some (.ok (some lost)) := by
    simp only [client, ClientCall.run, Except.toOption, bind, Option.bind, hsock, Option.map_some,
      lost]
  have hreach : (client 3).Reach Runs.Sys.anyStep (.ok (some lost)) :=
    .step (.step (.init rfl) trivial hnew) trivial hlost
  let silent : Answers 3 := { connects := fun _ _ => false }
  have hplain : (ClientCall.createFile silent).Plain (.ok (some lost)) := by
    refine ⟨fun a ha => ?_, fun as h => by cases h⟩
    cases ha
    exact given_silent _
  have hcreate : (client 3).step (.ok (some lost)) (.createFile silent) =
      some (.ok (some lost)) := by
    have hsock : lost.leaderSock = some ⟨['a'], false⟩ := rfl
    have hrun := writes_lost hne hsock rfl silent (lost.createFile silent) (by simp [writes])
    change some ((lost.createFile silent).map fun r => some r.1) = _
    rw [hrun]
    rfl
  obtain ⟨hkept, -, hwrites⟩ := client_keeps_leader hreach hne (.step .refl hplain hcreate)
  exact ⟨lost, hreach, hkept.trans hid, fun answers => hwrites rfl answers _ List.mem_cons_self⟩

end RaftFS
