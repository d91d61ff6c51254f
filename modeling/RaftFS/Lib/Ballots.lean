import Mathlib.Data.Finset.Card
import Mathlib.Data.List.Infix
import Mathlib.Logic.Function.Basic
import Mathlib.Order.Lattice

/-!
# Logs written by the winners of numbered ballots

Nodes of any type `ι` hold logs of entries of any type `ε`, each entry with a term. A node stands
in a term with the log it then holds, others cast at most one vote a term for a log at least as
long and as late as their own, and the winner of a term writes that term's log, `canon`. A log
that a node stores is always a prefix of some term's.

`Inv` is what every run keeps: a term has one winner, and up to any entry a log is the canonical
log of that entry's term (`Sanctioned`), so two logs that share an entry's place and term agree up
to it (`Sanctioned.take_eq`).
-/

namespace Ballots

variable {ι ε : Type*}

/-- A term won: by whom, with whose votes and with what log. -/
structure Ballot (ι ε : Type*) where
  term : ℕ
  winner : ι
  electors : Finset ι
  log : List ε

/-- The nodes' terms, logs, votes and bids, the ballots won, newest first, each term's log, and
which prefixes of it were stored by whom. -/
structure Core (ι ε : Type*) where
  cur : ι → ℕ
  log : ι → List ε
  vote : ι → ℕ → Option ι
  bid : ι → ℕ → Option (List ε)
  won : List (Ballot ι ε)
  canon : ℕ → List ε
  ack : ι → ℕ → ℕ → Prop

section Terms

variable (term : ε → ℕ)

/-- The term of a log's last entry, `0` if it has none. -/
def lastTerm (l : List ε) : ℕ := (l.getLast?.map term).getD 0

/-- `C` is at least as long as `l`, and its last entry at least as late. -/
def UpToDate (l C : List ε) : Prop := l.length ≤ C.length ∧ lastTerm term l ≤ lastTerm term C

/-- The terms of a log's entries never decrease. -/
def Sorted (l : List ε) : Prop := l.Pairwise fun a b => term a ≤ term b

theorem lastTerm_concat (l : List ε) (e : ε) : lastTerm term (l ++ [e]) = term e := by
  simp [lastTerm]

theorem Sorted.le_lastTerm {l : List ε} (h : Sorted term l) {e : ε} (he : e ∈ l) :
    term e ≤ lastTerm term l := by
  obtain ⟨a, x, rfl⟩ : ∃ a x, l = a ++ [x] :=
    ⟨_, _, (List.dropLast_append_getLast (List.ne_nil_of_mem he)).symm⟩
  rw [lastTerm_concat]
  rcases List.mem_append.1 he with he | he
  · exact (List.pairwise_append.1 h).2.2 e he x (List.mem_singleton_self x)
  · rw [List.mem_singleton.1 he]

theorem Sorted.of_isPrefix {l l' : List ε} (h : Sorted term l') (hp : l <+: l') : Sorted term l :=
  h.sublist hp.sublist

theorem Sorted.concat {l : List ε} (h : Sorted term l) {e : ε} (he : ∀ a ∈ l, term a ≤ term e) :
    Sorted term (l ++ [e]) := by
  refine List.pairwise_append.2 ⟨h, List.pairwise_singleton _ _, fun a ha b hb => ?_⟩
  rw [List.mem_singleton.1 hb]
  exact he a ha

end Terms

namespace Core

variable (s : Core ι ε)

/-- A ballot of term `T` has been won. -/
def Won (T : ℕ) : Prop := ∃ b ∈ s.won, b.term = T

/-- `y` won the ballot of term `T`. -/
def WonBy (y : ι) (T : ℕ) : Prop := ∃ b ∈ s.won, b.term = T ∧ b.winner = y

theorem WonBy.won {y : ι} {T : ℕ} (h : s.WonBy y T) : s.Won T :=
  let ⟨b, hb, ht, _⟩ := h
  ⟨b, hb, ht⟩

/-- The canonical log of `T` up to `N`, which `l` begins with. -/
def Held (T N : ℕ) (l : List ε) : Prop := (s.canon T).take N <+: l

section Updates

variable [DecidableEq ι]

/-- `v` learns of the term `U`. -/
def advance (v : ι) (U : ℕ) : Core ι ε := { s with cur := Function.update s.cur v U }

/-- `v` stands in the term `U` and votes for itself. -/
def stand (v : ι) (U : ℕ) : Core ι ε :=
  { s with
    cur := Function.update s.cur v U
    vote := Function.update s.vote v (Function.update (s.vote v) U (some v))
    bid := Function.update s.bid v (Function.update (s.bid v) U (some (s.log v))) }

/-- `v` votes for `y` in `U`. -/
def cast (v y : ι) (U : ℕ) : Core ι ε :=
  { s with
    cur := Function.update s.cur v (max (s.cur v) U)
    vote := Function.update s.vote v (Function.update (s.vote v) U (some y)) }

/-- `y` wins its term with the votes of `Q`. -/
def elect (y : ι) (Q : Finset ι) : Core ι ε :=
  { s with
    won := ⟨s.cur y, y, Q, s.log y⟩ :: s.won
    canon := Function.update s.canon (s.cur y) (s.log y) }

/-- `y` appends `e` to its log, and so to its term's. -/
def append (y : ι) (e : ε) : Core ι ε :=
  { s with
    log := Function.update s.log y (s.log y ++ [e])
    canon := Function.update s.canon (s.cur y) (s.canon (s.cur y) ++ [e]) }

/-- `v` stores the first `k` entries of the log of `T`. -/
def store (v : ι) (T k : ℕ) : Core ι ε :=
  { s with
    cur := Function.update s.cur v T
    log := Function.update s.log v ((s.canon T).take k)
    ack := fun w T' k' => (w = v ∧ T' = T ∧ k' = k) ∨ s.ack w T' k' }

end Updates

variable (term : ε → ℕ) (Quorum : Finset ι → Prop)

/-- Storing the first `k` entries of the log of `T` drops no entry unless one disagrees. -/
def Lossless (v : ι) (T k : ℕ) : Prop :=
  (s.canon T).take k <+: s.log v → (s.canon T).take k = s.log v

/-- The start: empty logs in term `0`, no votes, nothing won. -/
def start : Core ι ε where
  cur := fun _ => 0
  log := fun _ => []
  vote := fun _ _ => none
  bid := fun _ _ => none
  won := []
  canon := fun _ => []
  ack := fun _ _ _ => False

section Run

variable [DecidableEq ι]

/-- A step. Where `strict` holds, no step drops entries that the log stored agrees with. -/
inductive Step (strict : Prop) : Core ι ε → Core ι ε → Prop
  | advance {s : Core ι ε} (v : ι) (U : ℕ) (hU : s.cur v ≤ U) : Step strict s (s.advance v U)
  | stand {s : Core ι ε} (v : ι) (U : ℕ) (hU : s.cur v < U) : Step strict s (s.stand v U)
  | cast {s : Core ι ε} (v y : ι) (U : ℕ) (C : List ε) (hb : s.bid y U = some C)
      (hv : s.vote v U = none ∨ s.vote v U = some y) (hu : UpToDate term (s.log v) C) :
      Step strict s (s.cast v y U)
  | elect {s : Core ι ε} (y : ι) (Q : Finset ι) (hb : s.bid y (s.cur y) = some (s.log y))
      (hQ : Quorum Q) (hv : ∀ v ∈ Q, s.vote v (s.cur y) = some y) (hw : ¬ s.Won (s.cur y)) :
      Step strict s (s.elect y Q)
  | append {s : Core ι ε} (y : ι) (e : ε) (hw : s.WonBy y (s.cur y)) (he : term e = s.cur y) :
      Step strict s (s.append y e)
  | store {s : Core ι ε} (v : ι) (T k : ℕ) (hw : s.Won T) (hv : ¬ s.WonBy v T) (hT : s.cur v ≤ T)
      (hk : k ≤ (s.canon T).length) (hl : strict → s.Lossless v T k) :
      Step strict s (s.store v T k)

/-- The cores that runs from the start reach. -/
inductive Run (strict : Prop) : Core ι ε → Prop
  | start : Run strict start
  | step {s s' : Core ι ε} : Run strict s → Step term Quorum strict s s' → Run strict s'

end Run

/-- Up to each of its entries, `l` is the canonical log of that entry's term. -/
def Sanctioned (l : List ε) : Prop :=
  ∀ (p : ℕ) (e : ε), l[p]? = some e →
    s.Won (term e) ∧ l.take (p + 1) = (s.canon (term e)).take (p + 1)

/-- What every run keeps. -/
structure Inv : Prop where
  vote_le : ∀ {v y U}, s.vote v U = some y → U ≤ s.cur v
  vote_bid : ∀ {v y U}, s.vote v U = some y → ∃ C, s.bid y U = some C
  bid_le : ∀ {y U C}, s.bid y U = some C → U ≤ s.cur y
  bid_ok : ∀ {y U C}, s.bid y U = some C → s.Sanctioned term C
  won_quorum : ∀ {b}, b ∈ s.won → Quorum b.electors ∧
    ∀ v ∈ b.electors, s.vote v b.term = some b.winner
  won_le : ∀ {b}, b ∈ s.won → b.term ≤ s.cur b.winner
  won_log : ∀ {b}, b ∈ s.won → b.log <+: s.canon b.term
  won_uniq : ∀ {b b'}, b ∈ s.won → b' ∈ s.won → b.term = b'.term → b = b'
  canon_ok : ∀ {T}, s.Won T → s.Sanctioned term (s.canon T)
  canon_sorted : ∀ {T}, s.Won T → Sorted term (s.canon T)
  canon_le : ∀ {T e}, s.Won T → e ∈ s.canon T → term e ≤ T
  log_ok : ∀ v, s.Sanctioned term (s.log v)
  log_sorted : ∀ v, Sorted term (s.log v)
  log_le : ∀ {v e}, e ∈ s.log v → term e ≤ s.cur v
  lead_log : ∀ {y}, s.WonBy y (s.cur y) → s.log y = s.canon (s.cur y)

section Growth

variable {s} {s' : Core ι ε}

/-- `s'` has all that `s` has: terms as late, the same votes and bids, the ballots won, the logs of
their terms, perhaps longer, and the prefixes stored. -/
structure Le (s s' : Core ι ε) : Prop where
  cur : ∀ v, s.cur v ≤ s'.cur v
  vote : ∀ {v U y}, s.vote v U = some y → s'.vote v U = some y
  bid : ∀ {y U C}, s.bid y U = some C → s'.bid y U = some C
  won : s.won <:+ s'.won
  canon : ∀ {T}, s.Won T → s.canon T <+: s'.canon T
  ack : ∀ {v T k}, s.ack v T k → s'.ack v T k

theorem Le.wonBy (h : Le s s') {y : ι} {T : ℕ} (hw : s.WonBy y T) : s'.WonBy y T :=
  let ⟨b, hb, ht, hy⟩ := hw
  ⟨b, h.won.subset hb, ht, hy⟩

theorem Le.wonT (h : Le s s') {T : ℕ} (hw : s.Won T) : s'.Won T :=
  let ⟨b, hb, ht⟩ := hw
  ⟨b, h.won.subset hb, ht⟩

theorem take_eq_of_isPrefix {l l' : List ε} (h : l <+: l') {k : ℕ} (hk : k ≤ l.length) :
    l'.take k = l.take k := by
  obtain ⟨m, rfl⟩ := h
  rw [List.take_append_of_le_length hk]

theorem Le.take_canon (h : Le s s') {T k : ℕ} (hw : s.Won T) (hk : k ≤ (s.canon T).length) :
    (s'.canon T).take k = (s.canon T).take k :=
  take_eq_of_isPrefix (h.canon hw) hk

theorem length_le_of_take_eq {l l' : List ε} {k : ℕ} (h : l.take k = l'.take k)
    (hk : k ≤ l.length) : k ≤ l'.length := by
  have := congrArg List.length h
  simp only [List.length_take] at this
  omega

theorem Sanctioned.le_length {l : List ε} (h : s.Sanctioned term l) {p : ℕ} {e : ε}
    (he : l[p]? = some e) : p + 1 ≤ (s.canon (term e)).length := by
  obtain ⟨hp, -⟩ := List.getElem?_eq_some_iff.1 he
  exact length_le_of_take_eq (h p e he).2 hp

theorem Sanctioned.mono (h : Le s s') {l : List ε} (hl : s.Sanctioned term l) :
    s'.Sanctioned term l := by
  intro p e he
  obtain ⟨hw, ht⟩ := hl p e he
  exact ⟨h.wonT hw, by rw [h.take_canon hw (hl.le_length term he), ht]⟩

theorem Sanctioned.of_isPrefix {l l' : List ε} (hl : s.Sanctioned term l') (hp : l <+: l') :
    s.Sanctioned term l := by
  intro p e he
  obtain ⟨hlt, -⟩ := List.getElem?_eq_some_iff.1 he
  obtain ⟨m, rfl⟩ := hp
  obtain ⟨hw, ht⟩ := hl p e (by rw [List.getElem?_append_left hlt]; exact he)
  exact ⟨hw, by rw [← ht, List.take_append_of_le_length hlt]⟩

/-- Two sanctioned logs that have entries of one term at one place agree up to it. -/
theorem Sanctioned.take_eq {l l' : List ε} (hl : s.Sanctioned term l)
    (hl' : s.Sanctioned term l') {p : ℕ} {e e' : ε} (he : l[p]? = some e) (he' : l'[p]? = some e')
    (ht : term e = term e') : l.take (p + 1) = l'.take (p + 1) := by
  rw [(hl p e he).2, (hl' p e' he').2, ht]

/-- A sanctioned log that is not empty is a prefix of the log of its last entry's term. -/
theorem Sanctioned.prefix_canon {l : List ε} (hl : s.Sanctioned term l) (h : l ≠ []) :
    s.Won (lastTerm term l) ∧ l <+: s.canon (lastTerm term l) := by
  obtain ⟨a, x, rfl⟩ : ∃ a x, l = a ++ [x] := ⟨_, _, (List.dropLast_append_getLast h).symm⟩
  rw [lastTerm_concat]
  obtain ⟨hw, ht⟩ := hl a.length x (by simp)
  refine ⟨hw, ?_⟩
  rw [List.take_of_length_le (by simp)] at ht
  rw [ht]
  exact List.take_prefix _ _

/-- A sanctioned log that is the log of `e`'s term up to `e` goes on being sanctioned with `e`. -/
theorem Sanctioned.concat {l : List ε} (hl : s.Sanctioned term l) {e : ε} (hw : s.Won (term e))
    (he : s.canon (term e) = l ++ [e]) : s.Sanctioned term (l ++ [e]) := by
  intro p x hx
  rcases lt_trichotomy p l.length with hp | rfl | hp
  · rw [List.getElem?_append_left hp] at hx
    rw [List.take_append_of_le_length hp]
    exact hl p x hx
  · simp only [List.getElem?_concat_length, Option.some.injEq] at hx
    subst hx
    exact ⟨hw, by rw [he]⟩
  · rw [List.getElem?_eq_none (by simp; omega)] at hx
    exact absurd hx (by simp)

end Growth

theorem inv_start : (start : Core ι ε).Inv term Quorum where
  vote_le h := by simp [start] at h
  vote_bid h := by simp [start] at h
  bid_le h := by simp [start] at h
  bid_ok h := by simp [start] at h
  won_quorum h := by simp [start] at h
  won_le h := by simp [start] at h
  won_log h := by simp [start] at h
  won_uniq h := by simp [start] at h
  canon_ok h := by simp [start, Won] at h
  canon_sorted h := by simp [start, Won] at h
  canon_le h := by simp [start, Won] at h
  log_ok v p e h := by simp [start] at h
  log_sorted v := by simp [start, Sorted]
  log_le h := by simp [start] at h
  lead_log h := by simp [start, WonBy] at h

section Steps

variable [DecidableEq ι] {term Quorum} {s} {s' : Core ι ε} {strict : Prop}

theorem Step.le (hI : s.Inv term Quorum) (h : Step term Quorum strict s s') : Le s s' := by
  cases h with
  | advance v U hU =>
    refine ⟨fun w => ?_, id, id, List.suffix_rfl, fun _ => List.prefix_rfl, id⟩
    simp only [Core.advance, Function.update_apply]
    split_ifs with hw
    · exact hw ▸ hU
    · exact le_rfl
  | stand v U hU =>
    refine ⟨fun w => ?_, fun {w U' y} hv => ?_, fun {y U' C} hb => ?_, List.suffix_rfl,
      fun _ => List.prefix_rfl, id⟩
    · simp only [Core.stand, Function.update_apply]
      split_ifs with hw
      · exact hw ▸ hU.le
      · exact le_rfl
    · simp only [Core.stand, Function.update_apply]
      split_ifs with hw
      · subst hw
        have := hI.vote_le hv
        rw [Function.update_of_ne (by omega)]
        exact hv
      · exact hv
    · simp only [Core.stand, Function.update_apply]
      split_ifs with hw
      · subst hw
        have := hI.bid_le hb
        rw [Function.update_of_ne (by omega)]
        exact hb
      · exact hb
  | cast v y U C hb hv hu =>
    refine ⟨fun w => ?_, fun {w U' y'} hw => ?_, id, List.suffix_rfl, fun _ => List.prefix_rfl, id⟩
    · simp only [Core.cast, Function.update_apply]
      split_ifs with h1
      · exact h1 ▸ le_max_left _ _
      · exact le_rfl
    · simp only [Core.cast, Function.update_apply]
      split_ifs with h1
      · subst h1
        by_cases h2 : U' = U
        · subst h2
          rw [hw] at hv
          simpa using (hv.resolve_left (by simp)).symm
        · rw [Function.update_of_ne h2]
          exact hw
      · exact hw
  | elect y Q hb hQ hv hw =>
    refine ⟨fun _ => le_rfl, id, id, List.suffix_cons _ _, fun {T} hT => ?_, id⟩
    simp only [Core.elect]
    rw [Function.update_of_ne (by rintro rfl; exact hw hT)]
  | append y e hw he =>
    refine ⟨fun _ => le_rfl, id, id, List.suffix_rfl, fun {T} hT => ?_, id⟩
    simp only [Core.append, Function.update_apply]
    split_ifs with h1
    · exact h1 ▸ List.prefix_append _ _
    · exact List.prefix_rfl
  | store v T k hw hv hT hk hl =>
    refine ⟨fun w => ?_, id, id, List.suffix_rfl, fun _ => List.prefix_rfl, .inr⟩
    simp only [Core.store, Function.update_apply]
    split_ifs with h1
    · exact h1 ▸ hT
    · exact le_rfl

/-- Whoever has votes in a term someone has won has no quorum of them, unless it won. -/
theorem Inv.winner_eq (hI : s.Inv term Quorum)
    (hmeet : ∀ {A B : Finset ι}, Quorum A → Quorum B → (A ∩ B).Nonempty) {y : ι} {Q : Finset ι}
    (hQ : Quorum Q) {b : Ballot ι ε} (hb : b ∈ s.won)
    (hv : ∀ v ∈ Q, s.vote v b.term = some y) : b.winner = y := by
  obtain ⟨hq, hvb⟩ := hI.won_quorum hb
  obtain ⟨v, hmem⟩ := hmeet hq hQ
  have h1 := hvb v (Finset.mem_inter.1 hmem).1
  rw [hv v (Finset.mem_inter.1 hmem).2] at h1
  exact (Option.some.inj h1).symm

omit [DecidableEq ι] in
theorem Inv.wonBy_uniq (hI : s.Inv term Quorum) {y z : ι} {T : ℕ} (hy : s.WonBy y T)
    (hz : s.WonBy z T) : y = z := by
  obtain ⟨b, hb, ht, rfl⟩ := hy
  obtain ⟨b', hb', ht', rfl⟩ := hz
  rw [hI.won_uniq hb hb' (ht.trans ht'.symm)]

omit [DecidableEq ι] in
theorem Inv.wonBy_le (hI : s.Inv term Quorum) {y : ι} {T : ℕ} (hy : s.WonBy y T) :
    T ≤ s.cur y := by
  obtain ⟨b, hb, rfl, rfl⟩ := hy
  exact hI.won_le hb

theorem Inv.advance (hI : s.Inv term Quorum) {v : ι} {U : ℕ} (hU : s.cur v ≤ U) :
    (s.advance v U).Inv term Quorum := by
  have hle : Le s (s.advance v U) := Step.le hI (Step.advance v U hU : Step term Quorum False s _)
  refine { hI with
    vote_le := fun h => (hI.vote_le h).trans (hle.cur _)
    bid_le := fun h => (hI.bid_le h).trans (hle.cur _)
    won_le := fun h => (hI.won_le h).trans (hle.cur _)
    log_le := fun h => (hI.log_le h).trans (hle.cur _)
    lead_log := ?_ }
  rintro y ⟨b, hb, ht, rfl⟩
  have hcur : (s.advance v U).cur b.winner = s.cur b.winner :=
    le_antisymm (ht ▸ hI.won_le hb) (hle.cur _)
  rw [hcur] at ht ⊢
  exact hI.lead_log ⟨b, hb, ht, rfl⟩

theorem Inv.stand (hI : s.Inv term Quorum) {v : ι} {U : ℕ} (hU : s.cur v < U) :
    (s.stand v U).Inv term Quorum := by
  have hle : Le s (s.stand v U) := Step.le hI (Step.stand v U hU : Step term Quorum False s _)
  have hcur : (s.stand v U).cur v = U := by simp [Core.stand]
  have hbid : (s.stand v U).bid v U = some (s.log v) := by simp [Core.stand]
  have hvote : ∀ {w y U'}, (s.stand v U).vote w U' = some y →
      w = v ∧ U' = U ∧ y = v ∨ s.vote w U' = some y := by
    intro w y U' h
    simp only [Core.stand, Function.update_apply] at h
    split_ifs at h with h1
    · subst h1
      by_cases h2 : U' = U
      · subst h2
        rw [Function.update_self] at h
        exact .inl ⟨rfl, rfl, (Option.some.inj h).symm⟩
      · rw [Function.update_of_ne h2] at h
        exact .inr h
    · exact .inr h
  refine { hI with
    vote_le := fun {w y U'} h => ?_
    vote_bid := fun {w y U'} h => ?_
    bid_le := fun {y U' C} h => ?_
    bid_ok := fun {y U' C} h => ?_
    won_quorum := fun hb => ⟨(hI.won_quorum hb).1, fun w hw => hle.vote ((hI.won_quorum hb).2 w hw)⟩
    won_le := fun h => (hI.won_le h).trans (hle.cur _)
    log_le := fun h => (hI.log_le h).trans (hle.cur _)
    lead_log := ?_ }
  · rcases hvote h with ⟨rfl, rfl, -⟩ | h'
    · exact hcur.ge
    · exact (hI.vote_le h').trans (hle.cur _)
  · rcases hvote h with ⟨rfl, rfl, rfl⟩ | h'
    · exact ⟨_, hbid⟩
    · obtain ⟨C, hC⟩ := hI.vote_bid h'
      exact ⟨C, hle.bid hC⟩
  · by_cases hw : y = v ∧ U' = U
    · rw [hw.1, hw.2, hcur]
    · have h' : s.bid y U' = some C := by
        simp only [Core.stand, Function.update_apply] at h
        split_ifs at h with h1
        · subst h1
          rwa [Function.update_of_ne (fun h2 => hw ⟨rfl, h2⟩)] at h
        · exact h
      exact (hI.bid_le h').trans (hle.cur _)
  · simp only [Core.stand, Function.update_apply] at h
    split_ifs at h with h1
    · by_cases h2 : U' = U
      · subst h2
        rw [Function.update_self] at h
        exact Option.some.inj h ▸ hI.log_ok v
      · rw [Function.update_of_ne h2] at h
        exact hI.bid_ok (h1 ▸ h)
    · exact hI.bid_ok h
  · rintro y ⟨b, hb, ht, rfl⟩
    have hwl := hI.won_le hb
    have hne : b.winner ≠ v := by
      intro h
      rw [h, hcur] at ht
      rw [h] at hwl
      omega
    have hc : (s.stand v U).cur b.winner = s.cur b.winner := by simp [Core.stand, hne]
    rw [hc] at ht ⊢
    exact hI.lead_log ⟨b, hb, ht, rfl⟩

theorem Inv.cast (hI : s.Inv term Quorum) {v y : ι} {U : ℕ} {C : List ε} (hb : s.bid y U = some C)
    (hv : s.vote v U = none ∨ s.vote v U = some y) (hu : UpToDate term (s.log v) C) :
    (s.cast v y U).Inv term Quorum := by
  have hle : Le s (s.cast v y U) :=
    Step.le hI (Step.cast v y U C hb hv hu : Step term Quorum False s _)
  refine { hI with
    vote_le := fun {w z U'} h => ?_
    vote_bid := fun {w z U'} h => ?_
    bid_le := fun h => (hI.bid_le h).trans (hle.cur _)
    won_quorum := fun hb => ⟨(hI.won_quorum hb).1, fun w hw => hle.vote ((hI.won_quorum hb).2 w hw)⟩
    won_le := fun h => (hI.won_le h).trans (hle.cur _)
    log_le := fun h => (hI.log_le h).trans (hle.cur _)
    lead_log := ?_ }
  · simp only [Core.cast, Function.update_apply] at h ⊢
    split_ifs at h ⊢ with h1
    · subst h1
      by_cases h2 : U' = U
      · exact h2 ▸ le_max_right _ _
      · rw [Function.update_of_ne h2] at h
        exact (hI.vote_le h).trans (le_max_left _ _)
    · exact hI.vote_le h
  · simp only [Core.cast, Function.update_apply] at h ⊢
    split_ifs at h with h1
    · by_cases h2 : U' = U
      · subst h2
        rw [Function.update_self] at h
        exact ⟨C, Option.some.inj h ▸ hb⟩
      · rw [Function.update_of_ne h2] at h
        exact hI.vote_bid h
    · exact hI.vote_bid h
  · rintro z ⟨b, hb, ht, rfl⟩
    have hcur : (s.cast v y U).cur b.winner = s.cur b.winner :=
      le_antisymm (ht ▸ hI.won_le hb) (hle.cur _)
    rw [hcur] at ht ⊢
    exact hI.lead_log ⟨b, hb, ht, rfl⟩

theorem Inv.elect (hI : s.Inv term Quorum) {y : ι} {Q : Finset ι}
    (hb : s.bid y (s.cur y) = some (s.log y)) (hQ : Quorum Q)
    (hv : ∀ v ∈ Q, s.vote v (s.cur y) = some y) (hw : ¬ s.Won (s.cur y)) :
    (s.elect y Q).Inv term Quorum := by
  have hle : Le s (s.elect y Q) :=
    Step.le hI (Step.elect y Q hb hQ hv hw : Step term Quorum False s _)
  have hnew : (s.elect y Q).canon (s.cur y) = s.log y := by simp [Core.elect]
  have hold : ∀ {T}, T ≠ s.cur y → (s.elect y Q).canon T = s.canon T := by
    intro T hT
    simp [Core.elect, Function.update_of_ne hT]
  have hwon : ∀ {T}, T ≠ s.cur y → (s.elect y Q).Won T → s.Won T := by
    intro T hT h
    exact ((List.exists_mem_cons_iff _ _ _).1 h).resolve_left (Ne.symm hT)
  have hsanc : ∀ {l}, s.Sanctioned term l → (s.elect y Q).Sanctioned term l :=
    fun h => h.mono term hle
  refine { hI with
    bid_ok := fun h => hsanc (hI.bid_ok h)
    won_quorum := fun {b} h => ?_
    won_le := fun {b} h => ?_
    won_log := fun {b} h => ?_
    won_uniq := fun {b b'} h h' ht => ?_
    canon_ok := fun {T} h => ?_
    canon_sorted := fun {T} h => ?_
    canon_le := fun {T e} h he => ?_
    log_ok := fun v => hsanc (hI.log_ok v)
    lead_log := fun {z} h => ?_ }
  · rcases List.mem_cons.1 h with rfl | h
    · exact ⟨hQ, hv⟩
    · exact hI.won_quorum h
  · rcases List.mem_cons.1 h with rfl | h
    · exact le_rfl
    · exact hI.won_le h
  · rcases List.mem_cons.1 h with rfl | h
    · exact hnew ▸ List.prefix_rfl
    · rw [hold (fun h1 => hw ⟨b, h, h1⟩)]
      exact hI.won_log h
  · rcases List.mem_cons.1 h with rfl | h <;> rcases List.mem_cons.1 h' with rfl | h'
    · rfl
    · exact absurd ⟨b', h', ht.symm⟩ hw
    · exact absurd ⟨b, h, ht⟩ hw
    · exact hI.won_uniq h h' ht
  · by_cases hT : T = s.cur y
    · rw [hT, hnew]
      exact hsanc (hI.log_ok y)
    · rw [hold hT]
      exact hsanc (hI.canon_ok (hwon hT h))
  · by_cases hT : T = s.cur y
    · rw [hT, hnew]
      exact hI.log_sorted y
    · rw [hold hT]
      exact hI.canon_sorted (hwon hT h)
  · by_cases hT : T = s.cur y
    · rw [hT, hnew] at he
      exact hT ▸ hI.log_le he
    · rw [hold hT] at he
      exact hI.canon_le (hwon hT h) he
  · obtain ⟨b, hb', ht, rfl⟩ := h
    rcases List.mem_cons.1 hb' with rfl | hb'
    · exact hnew.symm
    · have hT : s.cur b.winner ≠ s.cur y := fun h1 => hw ⟨b, hb', ht.trans h1⟩
      exact (hI.lead_log ⟨b, hb', ht, rfl⟩).trans (hold hT).symm

theorem Inv.append (hI : s.Inv term Quorum) {y : ι} {e : ε} (hw : s.WonBy y (s.cur y))
    (he : term e = s.cur y) : (s.append y e).Inv term Quorum := by
  have hle : Le s (s.append y e) := Step.le hI (Step.append y e hw he : Step term Quorum False s _)
  have hlog := hI.lead_log hw
  have hnew : (s.append y e).canon (s.cur y) = s.canon (s.cur y) ++ [e] := by simp [Core.append]
  have hold : ∀ {T}, T ≠ s.cur y → (s.append y e).canon T = s.canon T := by
    intro T hT
    simp [Core.append, Function.update_of_ne hT]
  have hsanc : ∀ {l}, s.Sanctioned term l → (s.append y e).Sanctioned term l :=
    fun h => h.mono term hle
  have hcanon : (s.append y e).Sanctioned term (s.canon (s.cur y) ++ [e]) :=
    (hsanc (hI.canon_ok hw.won)).concat term (he ▸ hle.wonT hw.won) (by rw [he, hnew])
  have hsorted : Sorted term (s.canon (s.cur y) ++ [e]) :=
    (hI.canon_sorted hw.won).concat term fun a ha => he ▸ hI.canon_le hw.won ha
  refine { hI with
    bid_ok := fun h => hsanc (hI.bid_ok h)
    won_log := fun {b} h => (hI.won_log h).trans (hle.canon ⟨b, h, rfl⟩)
    canon_ok := fun {T} h => ?_
    canon_sorted := fun {T} h => ?_
    canon_le := fun {T x} h hx => ?_
    log_ok := fun v => ?_
    log_sorted := fun v => ?_
    log_le := fun {v x} hx => ?_
    lead_log := fun {z} h => ?_ }
  · by_cases hT : T = s.cur y
    · rw [hT, hnew]
      exact hcanon
    · rw [hold hT]
      exact hsanc (hI.canon_ok h)
  · by_cases hT : T = s.cur y
    · rw [hT, hnew]
      exact hsorted
    · rw [hold hT]
      exact hI.canon_sorted h
  · by_cases hT : T = s.cur y
    · rw [hT, hnew] at hx
      rcases List.mem_append.1 hx with hx | hx
      · exact hT ▸ hI.canon_le hw.won hx
      · rw [List.mem_singleton.1 hx, he, hT]
    · rw [hold hT] at hx
      exact hI.canon_le h hx
  · simp only [Core.append, Function.update_apply]
    split_ifs with hv
    · rw [hlog]
      exact hcanon
    · exact hsanc (hI.log_ok v)
  · simp only [Core.append, Function.update_apply]
    split_ifs with hv
    · rw [hlog]
      exact hsorted
    · exact hI.log_sorted v
  · simp only [Core.append, Function.update_apply] at hx ⊢
    split_ifs at hx with hv
    · rcases List.mem_append.1 hx with hx | hx
      · exact hv ▸ hI.log_le hx
      · rw [List.mem_singleton.1 hx, he, hv]
    · exact hI.log_le hx
  · by_cases hz : z = y
    · subst hz
      have h1 : (s.append z e).cur z = s.cur z := rfl
      rw [h1, hnew]
      simp [Core.append, hlog]
    · have h1 : (s.append y e).log z = s.log z := by simp [Core.append, hz]
      have h2 : (s.append y e).cur z = s.cur z := rfl
      have hT : s.cur z ≠ s.cur y := fun h3 => hz (hI.wonBy_uniq (h3 ▸ h) hw)
      rw [h1, h2, hold hT]
      exact hI.lead_log h

theorem Inv.store (hI : s.Inv term Quorum) {v : ι} {T k : ℕ} (hw : s.Won T) (hv : ¬ s.WonBy v T)
    (hT : s.cur v ≤ T) (hk : k ≤ (s.canon T).length) : (s.store v T k).Inv term Quorum := by
  have hle : Le s (s.store v T k) :=
    Step.le hI (Step.store v T k hw hv hT hk False.elim : Step term Quorum False s _)
  have hcur : (s.store v T k).cur v = T := by simp [Core.store]
  refine { hI with
    vote_le := fun h => (hI.vote_le h).trans (hle.cur _)
    bid_le := fun h => (hI.bid_le h).trans (hle.cur _)
    won_le := fun h => (hI.won_le h).trans (hle.cur _)
    log_ok := fun w => ?_
    log_sorted := fun w => ?_
    log_le := fun {w e} he => ?_
    lead_log := fun {y} h => ?_ }
  · simp only [Core.store, Function.update_apply]
    split_ifs with h1
    · exact (hI.canon_ok hw).of_isPrefix term (List.take_prefix _ _)
    · exact hI.log_ok w
  · simp only [Core.store, Function.update_apply]
    split_ifs with h1
    · exact (hI.canon_sorted hw).of_isPrefix term (List.take_prefix _ _)
    · exact hI.log_sorted w
  · simp only [Core.store, Function.update_apply] at he ⊢
    split_ifs at he ⊢ with h1
    · exact hI.canon_le hw (List.mem_of_mem_take he)
    · exact hI.log_le he
  · have hne : y ≠ v := by
      rintro rfl
      rw [hcur] at h
      exact hv h
    have h1 : (s.store v T k).log y = s.log y := by simp [Core.store, hne]
    have h2 : (s.store v T k).cur y = s.cur y := by simp [Core.store, hne]
    rw [h1, h2]
    rw [h2] at h
    exact hI.lead_log h

theorem Step.inv (hI : s.Inv term Quorum) (h : Step term Quorum strict s s') :
    s'.Inv term Quorum := by
  cases h with
  | advance v U hU => exact hI.advance hU
  | stand v U hU => exact hI.stand hU
  | cast v y U C hb hv hu => exact hI.cast hb hv hu
  | elect y Q hb hQ hv hw => exact hI.elect hb hQ hv hw
  | append y e hw he => exact hI.append hw he
  | store v T k hw hv hT hk hl => exact hI.store hw hv hT hk

/-- Every run keeps the invariant. -/
theorem Run.inv (h : Run term Quorum strict s) : s.Inv term Quorum := by
  induction h with
  | start => exact inv_start term Quorum
  | step _ hs ih => exact hs.inv ih

end Steps

end Core

end Ballots
