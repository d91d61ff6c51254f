import RaftFS.Lib.Ballots

/-!
# What a quorum stored, every later winner holds

A prefix of the log of `T` that ends in an entry of `T` is chosen once a quorum has stored it. In
runs that drop no agreeing entry a node keeps what it stored until the winner of a later term that
misses it writes over it (`AckInv.kept`). A voter that stored it gives its vote to a log that has
it, with the same exception (`AckInv.voted`). So a winner that misses a prefix a quorum stored
needs an earlier winner that misses it, and there is no first one (`Run.chosen_held`).

`Settled` is what a node may act on: up to `c` its log is a chosen one. Runs keep it.
-/

namespace Ballots

namespace Core

variable {ι ε : Type*} {term : ε → ℕ} {Quorum : Finset ι → Prop} {s s' : Core ι ε}

/-- One of `bs` is of a term after `T` and its log misses the log of `T` up to `N`. -/
def Missed (s : Core ι ε) (T N : ℕ) (bs : List (Ballot ι ε)) : Prop :=
  ∃ b ∈ bs, T < b.term ∧ ¬ s.Held T N b.log

/-- The log of `T` has an `N`th entry, of the term `T`. -/
def Own (term : ε → ℕ) (s : Core ι ε) (T N : ℕ) : Prop :=
  0 < N ∧ ∃ e, (s.canon T)[N - 1]? = some e ∧ term e = T

/-- A quorum has stored the log of `T` up to `N`, an entry of `T`. -/
def Chosen (term : ε → ℕ) (Quorum : Finset ι → Prop) (s : Core ι ε) (T N : ℕ) : Prop :=
  s.Own term T N ∧ ∃ Q, Quorum Q ∧ ∀ v ∈ Q, ∃ k, s.ack v T k ∧ N ≤ k

/-- Up to `c`, `l` is a chosen log of a term no later than `U`. -/
def SettledIn (term : ε → ℕ) (Quorum : Finset ι → Prop) (s : Core ι ε) (U c : ℕ) (l : List ε) :
    Prop :=
  c = 0 ∨ ∃ T N, s.Chosen term Quorum T N ∧ T ≤ U ∧ c ≤ N ∧ s.Held T c l

/-- Up to `c` the log of `v` is a chosen one, of a term that `v` has reached. -/
def Settled (term : ε → ℕ) (Quorum : Finset ι → Prop) (s : Core ι ε) (v : ι) (c : ℕ) : Prop :=
  s.SettledIn term Quorum (s.cur v) c (s.log v)

/-- What runs without loss keep of the prefixes stored. -/
structure AckInv (term : ε → ℕ) (s : Core ι ε) : Prop where
  stored : ∀ {v T k}, s.ack v T k → s.Won T ∧ T ≤ s.cur v ∧ k ≤ (s.canon T).length
  kept : ∀ {v T k N}, s.ack v T k → N ≤ k → s.Held T N (s.log v) ∨ s.Missed T N s.won
  voted : ∀ {v y U C T k N}, s.vote v U = some y → s.bid y U = some C → s.ack v T k → T < U →
    N ≤ k → s.Own term T N → s.Held T N C ∨ s.Missed T N s.won
  elected : ∀ {b bs v T k N}, b :: bs <:+ s.won → v ∈ b.electors → s.ack v T k → T < b.term →
    N ≤ k → s.Own term T N → s.Held T N b.log ∨ s.Missed T N bs

theorem Own.le {T N : ℕ} (h : s.Own term T N) : N ≤ (s.canon T).length := by
  obtain ⟨h0, e, he, -⟩ := h
  obtain ⟨hlt, -⟩ := List.getElem?_eq_some_iff.1 he
  omega

theorem Held.mono (h : Le s s') {T N : ℕ} (hw : s.Won T) (hN : N ≤ (s.canon T).length)
    {l : List ε} : s'.Held T N l ↔ s.Held T N l := by
  unfold Held
  rw [h.take_canon hw hN]

theorem Held.take {T N N' : ℕ} {l : List ε} (h : s.Held T N l) (hN : N' ≤ N) : s.Held T N' l :=
  (List.take_prefix_take_left hN).trans h

theorem Held.length_le {T N : ℕ} {l : List ε} (h : s.Held T N l) (hN : N ≤ (s.canon T).length) :
    N ≤ l.length := by
  have := List.IsPrefix.length_le h
  rw [List.length_take] at this
  omega

/-- Logs that agree up to `N` hold the same up to there. -/
theorem Held.of_take_eq {T N : ℕ} {l l' : List ε} (h : s.Held T N l)
    (hN : N ≤ (s.canon T).length) (ht : l.take N = l'.take N) : s.Held T N l' := by
  have hlen : ((s.canon T).take N).length = N := by rw [List.length_take, min_eq_left hN]
  have heq : (s.canon T).take N = l.take N := by
    have := List.prefix_iff_eq_take.1 h
    rwa [hlen] at this
  unfold Held
  rw [heq, ht]
  exact List.take_prefix _ _

theorem Held.getElem?_eq {T N i : ℕ} {l : List ε} (h : s.Held T N l)
    (hN : N ≤ (s.canon T).length) (hi : i < N) : l[i]? = (s.canon T)[i]? := by
  obtain ⟨m, rfl⟩ := h
  rw [List.getElem?_append_left (by rw [List.length_take]; omega), List.getElem?_take_of_lt hi]

theorem Missed.mono (h : Le s s') {T N : ℕ} (hw : s.Won T) (hN : N ≤ (s.canon T).length)
    {bs bs' : List (Ballot ι ε)} (hbs : bs ⊆ bs') (hm : s.Missed T N bs) : s'.Missed T N bs' := by
  obtain ⟨b, hb, ht, hh⟩ := hm
  exact ⟨b, hbs hb, ht, fun h' => hh ((Held.mono h hw hN).1 h')⟩

theorem Missed.congr (h : Le s s') {T N : ℕ} (hw : s.Won T) (hN : N ≤ (s.canon T).length)
    {bs : List (Ballot ι ε)} : s'.Missed T N bs ↔ s.Missed T N bs := by
  unfold Missed
  simp only [Held.mono h hw hN]

theorem Own.congr (h : Le s s') {T k N : ℕ} (hw : s.Won T) (hk : k ≤ (s.canon T).length)
    (hN : N ≤ k) : s'.Own term T N ↔ s.Own term T N := by
  unfold Own
  rcases Nat.eq_zero_or_pos N with rfl | h0
  · simp
  · have hlt : N - 1 < (s.canon T).length := by omega
    obtain ⟨m, hm⟩ := h.canon hw
    rw [← hm, List.getElem?_append_left hlt]

theorem Chosen.mono (h : Le s s') {T N : ℕ} (hw : s.Won T) (hc : s.Chosen term Quorum T N) :
    s'.Chosen term Quorum T N := by
  obtain ⟨ho, Q, hQ, ha⟩ := hc
  refine ⟨(Own.congr h hw ho.le le_rfl).2 ho, Q, hQ, fun v hv => ?_⟩
  obtain ⟨k, hk, hN⟩ := ha v hv
  exact ⟨k, h.ack hk, hN⟩

/-- A log that is up to date with one that holds the log of `T` up to an entry of `T` holds it
too, unless a later winner misses it. -/
theorem held_of_upToDate (hI : s.Inv term Quorum) {T N : ℕ} (ho : s.Own term T N) {l C : List ε}
    (hl : Sorted term l) (hC : s.Sanctioned term C) (hh : s.Held T N l) (hu : UpToDate term l C) :
    s.Held T N C ∨ s.Missed T N s.won := by
  obtain ⟨h0, e, he, hte⟩ := ho
  have hNc : N ≤ (s.canon T).length := Own.le (⟨h0, e, he, hte⟩ : s.Own term T N)
  have hNl : N ≤ l.length := hh.length_le hNc
  have hel : e ∈ l := by
    refine List.IsPrefix.mem (List.mem_of_getElem? (i := N - 1) ?_) hh
    rw [List.getElem?_take_of_lt (by omega)]
    exact he
  have hT : T ≤ lastTerm term C := by
    calc T = term e := hte.symm
      _ ≤ lastTerm term l := hl.le_lastTerm term hel
      _ ≤ lastTerm term C := hu.2
  have hCne : C ≠ [] := by
    rintro rfl
    have := hu.1
    simp only [List.length_nil] at this
    omega
  obtain ⟨hwon, hCp⟩ := hC.prefix_canon term hCne
  have hlen : ((s.canon T).take N).length ≤ C.length :=
    (List.length_take_le _ _).trans (hNl.trans hu.1)
  rcases hT.eq_or_lt with heq | hlt
  · rw [← heq] at hCp
    exact .inl (List.prefix_of_prefix_length_le (List.take_prefix _ _) hCp hlen)
  · obtain ⟨b, hb, hbt⟩ := hwon
    by_cases hbh : s.Held T N b.log
    · have h1 : (s.canon T).take N <+: s.canon (lastTerm term C) :=
        hbh.trans (hbt ▸ hI.won_log hb)
      exact .inl (List.prefix_of_prefix_length_le h1 hCp hlen)
    · exact .inr ⟨b, hb, by omega, hbh⟩

section Kept

/-- Where nothing but terms, votes and bids changes, the prefixes stored stay kept. -/
theorem AckInv.of_le (hA : s.AckInv term) (h : Le s s') (hlog : s'.log = s.log)
    (hack : s'.ack = s.ack) {v : ι} {T k N : ℕ} (hk : s'.ack v T k) (hN : N ≤ k) :
    s'.Held T N (s'.log v) ∨ s'.Missed T N s'.won := by
  rw [hack] at hk
  obtain ⟨hw, -, hlen⟩ := hA.stored hk
  rw [hlog, Held.mono h hw (hN.trans hlen)]
  exact (hA.kept hk hN).imp_right (Missed.mono h hw (hN.trans hlen) h.won.subset)

theorem AckInv.stored_of_le (hA : s.AckInv term) (h : Le s s') {v : ι} {T k : ℕ}
    (hk : s.ack v T k) : s'.Won T ∧ T ≤ s'.cur v ∧ k ≤ (s'.canon T).length := by
  obtain ⟨hw, hT, hlen⟩ := hA.stored hk
  exact ⟨h.wonT hw, hT.trans (h.cur v), hlen.trans (h.canon hw).length_le⟩

/-- An old vote of a node that stored nothing new stays as it was. -/
theorem AckInv.voted_of_le (hA : s.AckInv term) (h : Le s s') {v y : ι} {U T k N : ℕ} {C : List ε}
    (hv : s.vote v U = some y) (hb : s.bid y U = some C) (hk : s.ack v T k) (hT : T < U)
    (hN : N ≤ k) (ho : s'.Own term T N) : s'.Held T N C ∨ s'.Missed T N s'.won := by
  obtain ⟨hw, -, hlen⟩ := hA.stored hk
  rw [Own.congr h hw hlen hN] at ho
  rw [Held.mono h hw (hN.trans hlen)]
  exact (hA.voted hv hb hk hT hN ho).imp_right (Missed.mono h hw (hN.trans hlen) h.won.subset)

theorem AckInv.elected_of_le (hA : s.AckInv term) (h : Le s s') {b : Ballot ι ε}
    {bs : List (Ballot ι ε)} {v : ι} {T k N : ℕ} (hb : b :: bs <:+ s.won) (hv : v ∈ b.electors)
    (hk : s.ack v T k) (hT : T < b.term) (hN : N ≤ k) (ho : s'.Own term T N) :
    s'.Held T N b.log ∨ s'.Missed T N bs := by
  obtain ⟨hw, -, hlen⟩ := hA.stored hk
  rw [Own.congr h hw hlen hN] at ho
  rw [Held.mono h hw (hN.trans hlen), Missed.congr h hw (hN.trans hlen)]
  exact hA.elected hb hv hk hT hN ho

/-- Storing without loss a log that holds a prefix the node's own log holds keeps the prefix. -/
theorem Lossless.held {v : ι} {T T' k N : ℕ} (hl : s.Lossless v T k) (hh : s.Held T' N (s.log v))
    (hc : s.Held T' N (s.canon T)) : s.Held T' N ((s.canon T).take k) := by
  by_cases hk : ((s.canon T').take N).length ≤ ((s.canon T).take k).length
  · exact List.prefix_of_prefix_length_le hc (List.take_prefix _ _) hk
  · have h2 : (s.canon T).take k <+: s.log v :=
      (List.prefix_of_prefix_length_le (List.take_prefix _ _) hc (by omega)).trans hh
    rw [hl h2]
    exact hh

end Kept

section Steps

variable [DecidableEq ι] (hI : s.Inv term Quorum) (hA : s.AckInv term)

include hI hA

theorem AckInv.advance {v : ι} {U : ℕ} (hU : s.cur v ≤ U) : (s.advance v U).AckInv term := by
  have hle : Le s (s.advance v U) := Step.le hI (Step.advance v U hU : Step term Quorum True s _)
  exact {
    stored := fun hk => hA.stored_of_le hle hk
    kept := fun hk hN => hA.of_le hle rfl rfl hk hN
    voted := fun hv hb hk hT hN ho => hA.voted_of_le hle hv hb hk hT hN ho
    elected := fun hb hv hk hT hN ho => hA.elected_of_le hle hb hv hk hT hN ho }

theorem AckInv.stand {v : ι} {U : ℕ} (hU : s.cur v < U) : (s.stand v U).AckInv term := by
  have hle : Le s (s.stand v U) := Step.le hI (Step.stand v U hU : Step term Quorum True s _)
  refine {
    stored := fun hk => hA.stored_of_le hle hk
    kept := fun hk hN => hA.of_le hle rfl rfl hk hN
    voted := fun {w y U' C T k N} hv hb hk hT hN ho => ?_
    elected := fun hb hv hk hT hN ho => hA.elected_of_le hle hb hv hk hT hN ho }
  by_cases hw : w = v ∧ U' = U
  · obtain ⟨rfl, rfl⟩ := hw
    have hy : y = w := by simpa [Core.stand] using hv.symm
    subst hy
    have hC : C = s.log y := by simpa [Core.stand] using hb.symm
    rw [hC]
    exact hA.of_le hle rfl rfl hk hN
  · have hv' : s.vote w U' = some y := by
      simp only [Core.stand, Function.update_apply] at hv
      split_ifs at hv with h1
      · subst h1
        rwa [Function.update_of_ne (fun h2 => hw ⟨rfl, h2⟩)] at hv
      · exact hv
    by_cases hy : y = v ∧ U' = U
    · -- no one but `v` has voted for `v` in a term it had not reached
      obtain ⟨rfl, rfl⟩ := hy
      obtain ⟨C', hC'⟩ := hI.vote_bid hv'
      have := hI.bid_le hC'
      omega
    · have hb' : s.bid y U' = some C := by
        simp only [Core.stand, Function.update_apply] at hb
        split_ifs at hb with h1
        · subst h1
          rwa [Function.update_of_ne (fun h2 => hy ⟨rfl, h2⟩)] at hb
        · exact hb
      exact hA.voted_of_le hle hv' hb' hk hT hN ho

theorem AckInv.cast {v y : ι} {U : ℕ} {C : List ε} (hb : s.bid y U = some C)
    (hv : s.vote v U = none ∨ s.vote v U = some y) (hu : UpToDate term (s.log v) C) :
    (s.cast v y U).AckInv term := by
  have hle : Le s (s.cast v y U) :=
    Step.le hI (Step.cast v y U C hb hv hu : Step term Quorum True s _)
  refine {
    stored := fun hk => hA.stored_of_le hle hk
    kept := fun hk hN => hA.of_le hle rfl rfl hk hN
    voted := fun {w z U' D T k N} hv' hb' hk hT hN ho => ?_
    elected := fun hb hv hk hT hN ho => hA.elected_of_le hle hb hv hk hT hN ho }
  by_cases hw : w = v ∧ U' = U
  · obtain ⟨rfl, rfl⟩ := hw
    have hz : z = y := by simpa [Core.cast] using hv'.symm
    subst hz
    have hD : D = C := by
      have : s.bid z U' = some D := hb'
      rw [hb] at this
      exact (Option.some.inj this).symm
    subst hD
    -- the voter's log holds what it stored, and the bid is up to date with it
    rcases hA.of_le hle rfl rfl hk hN with hh | hm
    · exact held_of_upToDate (hI.cast hb hv hu) ho (hI.log_sorted w)
        ((hI.bid_ok hb).mono term hle) hh hu
    · exact .inr hm
  · have hv'' : s.vote w U' = some z := by
      simp only [Core.cast, Function.update_apply] at hv'
      split_ifs at hv' with h1
      · subst h1
        rwa [Function.update_of_ne (fun h2 => hw ⟨rfl, h2⟩)] at hv'
      · exact hv'
    exact hA.voted_of_le hle hv'' hb' hk hT hN ho

theorem AckInv.elect {y : ι} {Q : Finset ι} (hb : s.bid y (s.cur y) = some (s.log y))
    (hQ : Quorum Q) (hv : ∀ v ∈ Q, s.vote v (s.cur y) = some y) (hw : ¬ s.Won (s.cur y)) :
    (s.elect y Q).AckInv term := by
  have hle : Le s (s.elect y Q) :=
    Step.le hI (Step.elect y Q hb hQ hv hw : Step term Quorum True s _)
  refine {
    stored := fun hk => hA.stored_of_le hle hk
    kept := fun hk hN => hA.of_le hle rfl rfl hk hN
    voted := fun hv hb hk hT hN ho => hA.voted_of_le hle hv hb hk hT hN ho
    elected := fun {b bs v T k N} hs hmem hk hT hN ho => ?_ }
  rcases List.suffix_cons_iff.1 hs with heq | hs
  · -- the new ballot: its electors voted for the log it is won with
    obtain ⟨rfl, rfl⟩ := List.cons.inj heq
    obtain ⟨hwT, -, hlen⟩ := hA.stored hk
    rw [Own.congr hle hwT hlen hN] at ho
    rw [Held.mono hle hwT (hN.trans hlen), Missed.congr hle hwT (hN.trans hlen)]
    exact hA.voted (hv v hmem) hb hk hT hN ho
  · exact hA.elected_of_le hle hs hmem hk hT hN ho

theorem AckInv.append {y : ι} {e : ε} (hw : s.WonBy y (s.cur y)) (he : term e = s.cur y) :
    (s.append y e).AckInv term := by
  have hle : Le s (s.append y e) := Step.le hI (Step.append y e hw he : Step term Quorum True s _)
  refine {
    stored := fun hk => hA.stored_of_le hle hk
    kept := fun {v T k N} hk hN => ?_
    voted := fun hv hb hk hT hN ho => hA.voted_of_le hle hv hb hk hT hN ho
    elected := fun hb hv hk hT hN ho => hA.elected_of_le hle hb hv hk hT hN ho }
  obtain ⟨hwT, -, hlen⟩ := hA.stored hk
  rw [Held.mono hle hwT (hN.trans hlen)]
  refine (hA.kept hk hN).imp (fun hh => ?_) (Missed.mono hle hwT (hN.trans hlen) hle.won.subset)
  simp only [Core.append, Function.update_apply]
  split_ifs with h1
  · exact (h1 ▸ hh).trans (List.prefix_append _ _)
  · exact hh

theorem AckInv.store {v : ι} {T k : ℕ} (hw : s.Won T) (hv : ¬ s.WonBy v T) (hT : s.cur v ≤ T)
    (hk : k ≤ (s.canon T).length) (hl : s.Lossless v T k) : (s.store v T k).AckInv term := by
  have hle : Le s (s.store v T k) :=
    Step.le hI (Step.store v T k hw hv hT hk fun _ => hl : Step term Quorum True s _)
  have hcur : (s.store v T k).cur v = T := by simp [Core.store]
  have hnew : ∀ {w z : ι} {U T' k' : ℕ}, s.vote w U = some z → (s.store v T k).ack w T' k' →
      T' < U → s.ack w T' k' := by
    rintro w z U T' k' hvote (⟨rfl, rfl, rfl⟩ | hack) hU
    · have := hI.vote_le hvote
      omega
    · exact hack
  refine {
    stored := fun {w T' k'} hk' => ?_
    kept := fun {w T' k' N} hk' hN => ?_
    voted := fun {w y U C T' k' N} hv' hb hk' hT' hN ho =>
      hA.voted_of_le hle hv' hb (hnew hv' hk' hT') hT' hN ho
    elected := fun {b bs w T' k' N} hb hv' hk' hT' hN ho =>
      hA.elected_of_le hle hb hv' (hnew ((hI.won_quorum (hb.subset List.mem_cons_self)).2 w hv')
        hk' hT') hT' hN ho }
  · rcases hk' with ⟨rfl, rfl, rfl⟩ | hk'
    · exact ⟨hw, hcur.ge, hk⟩
    · exact hA.stored_of_le hle hk'
  · by_cases h1 : w = v
    swap
    · have hlog : (s.store v T k).log w = s.log w := by simp [Core.store, h1]
      have hk'' : s.ack w T' k' := hk'.resolve_left (fun h => h1 h.1)
      obtain ⟨hwT, -, hlen⟩ := hA.stored hk''
      rw [hlog, Held.mono hle hwT (hN.trans hlen)]
      exact (hA.kept hk'' hN).imp_right
        (Missed.mono hle hwT (hN.trans hlen) hle.won.subset)
    subst h1
    have hlog : (s.store w T k).log w = (s.canon T).take k := by simp [Core.store]
    rw [hlog]
    rcases hk' with ⟨-, rfl, rfl⟩ | hk'
    · exact .inl (List.take_prefix_take_left hN)
    obtain ⟨hwT, hTw, hlen⟩ := hA.stored hk'
    rw [Held.mono hle hwT (hN.trans hlen)]
    rcases hA.kept hk' hN with hh | hm
    swap
    · exact .inr (Missed.mono hle hwT (hN.trans hlen) hle.won.subset hm)
    obtain ⟨b, hb, rfl⟩ := hw
    rcases (hTw.trans hT).eq_or_lt with rfl | hlt
    · exact .inl (hl.held hh (List.take_prefix _ _))
    · by_cases hbh : s.Held T' N b.log
      · exact .inl (hl.held hh (hbh.trans (hI.won_log hb)))
      · exact .inr ⟨b, hb, hlt, fun h => hbh ((Held.mono hle hwT (hN.trans hlen)).1 h)⟩

theorem Step.ackInv (h : Step term Quorum True s s') : s'.AckInv term := by
  cases h with
  | advance v U hU => exact hA.advance hI hU
  | stand v U hU => exact hA.stand hI hU
  | cast v y U C hb hv hu => exact hA.cast hI hb hv hu
  | elect y Q hb hQ hv hw => exact hA.elect hI hb hQ hv hw
  | append y e hw he => exact hA.append hI hw he
  | store v T k hw hv hT hk hl => exact hA.store hI hw hv hT hk (hl trivial)

end Steps

theorem Run.ackInv [DecidableEq ι] (h : Run term Quorum True s) : s.AckInv term := by
  induction h with
  | start =>
    exact {
      stored := fun h => h.elim
      kept := fun h => h.elim
      voted := fun _ _ h => h.elim
      elected := fun _ _ h => h.elim }
  | step hr hs ih => exact hs.ackInv hr.inv ih

section Chosen

variable [DecidableEq ι] (hmeet : ∀ {A B : Finset ι}, Quorum A → Quorum B → (A ∩ B).Nonempty)

include hmeet

/-- No winner of a later term misses what a quorum stored: it would need an earlier one that
does. -/
theorem AckInv.not_missed (hI : s.Inv term Quorum) (hA : s.AckInv term) {T N : ℕ}
    (hc : s.Chosen term Quorum T N) :
    ∀ bs : List (Ballot ι ε), bs <:+ s.won → ¬ s.Missed T N bs
  | [], _ => by simp [Missed]
  | b :: bs, hs => by
    have ih := AckInv.not_missed hI hA hc bs ((List.suffix_cons b bs).trans hs)
    obtain ⟨ho, Q, hQ, hst⟩ := hc
    rintro ⟨c, hcm, hlt, hno⟩
    rcases List.mem_cons.1 hcm with rfl | hcm
    · obtain ⟨v, hv⟩ := hmeet hQ (hI.won_quorum (hs.subset List.mem_cons_self)).1
      obtain ⟨k, hk, hN⟩ := hst v (Finset.mem_inter.1 hv).1
      rcases hA.elected hs (Finset.mem_inter.1 hv).2 hk hlt hN ho with hh | hm
      · exact hno hh
      · exact ih hm
    · exact ih ⟨c, hcm, hlt, hno⟩

variable (hr : Run term Quorum True s)

include hr

/-- The winner of a later term was elected with what a quorum stored. -/
theorem Run.chosen_held {T N : ℕ} (hc : s.Chosen term Quorum T N) {b : Ballot ι ε}
    (hb : b ∈ s.won) (hT : T < b.term) : s.Held T N b.log := by
  by_contra h
  exact hr.ackInv.not_missed hmeet hr.inv hc s.won List.suffix_rfl ⟨b, hb, hT, h⟩

theorem Run.chosen_canon {T N U : ℕ} (hc : s.Chosen term Quorum T N) (hw : s.Won U)
    (hU : T ≤ U) : s.Held T N (s.canon U) := by
  obtain ⟨b, hb, rfl⟩ := hw
  rcases hU.eq_or_lt with rfl | hlt
  · exact List.take_prefix _ _
  · exact (hr.chosen_held hmeet hc hb hlt).trans (hr.inv.won_log hb)

/-- A quorum holds a chosen log, whatever it has done since. -/
theorem Run.chosen_kept {T N : ℕ} (hc : s.Chosen term Quorum T N) :
    ∃ Q, Quorum Q ∧ ∀ v ∈ Q, s.Held T N (s.log v) := by
  obtain ⟨ho, Q, hQ, hst⟩ := hc
  refine ⟨Q, hQ, fun v hv => ?_⟩
  obtain ⟨k, hk, hN⟩ := hst v hv
  exact (hr.ackInv.kept hk hN).resolve_right
    (hr.ackInv.not_missed hmeet hr.inv ⟨ho, Q, hQ, hst⟩ s.won List.suffix_rfl)

/-- Two chosen logs agree as far as both go. -/
theorem Run.chosen_agree {T T' N N' i : ℕ} (hc : s.Chosen term Quorum T N)
    (hc' : s.Chosen term Quorum T' N') (hw : s.Won T) (hw' : s.Won T') (hi : i < N) (hi' : i < N') :
    (s.canon T)[i]? = (s.canon T')[i]? := by
  wlog hT : T ≤ T' generalizing T T' N N'
  · exact (this hc' hc hw' hw hi' hi (by omega)).symm
  have hh := hr.chosen_canon hmeet hc hw' hT
  have hN := hc.1.le
  have hlen := hh.length_le hN
  rw [← List.getElem?_take_of_lt hi, ← List.getElem?_take_of_lt (l := s.canon T') hi]
  congr 1
  unfold Held at hh
  rw [List.prefix_iff_eq_take] at hh
  rw [hh, List.length_take, min_eq_left hN]

theorem Run.won_of_chosen {T N : ℕ} (hc : s.Chosen term Quorum T N) : s.Won T := by
  obtain ⟨-, Q, hQ, hst⟩ := hc
  obtain ⟨v, hv⟩ := hmeet hQ hQ
  obtain ⟨k, hk, -⟩ := hst v (Finset.mem_inter.1 hv).1
  exact (hr.ackInv.stored hk).1

theorem Run.settledIn_mono (hle : Le s s') {U U' c : ℕ} {l : List ε}
    (h : s.SettledIn term Quorum U c l) (hU : U ≤ U') : s'.SettledIn term Quorum U' c l := by
  rcases h with rfl | ⟨T, N, hc, hT, hcN, hh⟩
  · exact .inl rfl
  · have hw := hr.won_of_chosen hmeet hc
    exact .inr ⟨T, N, hc.mono hle hw, hT.trans hU, hcN, (Held.mono hle hw (hcN.trans hc.1.le)).2 hh⟩

/-- What a node may act on stays so, whatever the next step is. -/
theorem Run.settled_step {v : ι} {c : ℕ} (hs : s.Settled term Quorum v c)
    (h : Step term Quorum True s s') : s'.Settled term Quorum v c := by
  rcases hs with rfl | ⟨T, N, hc, hT, hcN, hh⟩
  · exact .inl rfl
  have hle := h.le hr.inv
  have hw := hr.won_of_chosen hmeet hc
  have hlen := hcN.trans hc.1.le
  refine .inr ⟨T, N, hc.mono hle hw, hT.trans (hle.cur v), hcN, ?_⟩
  rw [Held.mono hle hw hlen]
  cases h with
  | advance | stand | cast | elect => exact hh
  | append y e =>
    simp only [Core.append, Function.update_apply]
    split_ifs with h1
    · exact (h1 ▸ hh).trans (List.prefix_append _ _)
    · exact hh
  | store w U k hwU hv hU hk hl =>
    simp only [Core.store, Function.update_apply]
    split_ifs with h1
    · subst h1
      exact (hl trivial).held hh ((hr.chosen_canon hmeet hc hwU (hT.trans hU)).take hcN)
    · exact hh

end Chosen

end Core

end Ballots
