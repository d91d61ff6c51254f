import RaftFS.Proofs.Link

/-!
# Batches of a winner's log

A batch that matches, cut from a winner's log and written to a log of winners' entries, makes it a
part of the winner's log, and the whole of it where nothing is lost (`laid_isPrefix`).
-/

namespace RaftFS

variable {n : ℕ} {t : LCore n}

open Ballots

/-- Where logs of winners have entries of one term at one place, they agree up to it. -/
theorem getElem?_eq_of_term {l src : List Entry} (hl : t.Sanctioned Entry.term l)
    (hs : t.Sanctioned Entry.term src) {i j : ℕ} {x e : Entry} (hx : l[i]? = some x)
    (he : src[i]? = some e) (ht : x.term = e.term) (hj : j ≤ i) : l[j]? = src[j]? := by
  have h := hl.take_eq Entry.term hs hx he ht
  rw [← List.getElem?_take_of_lt (Nat.lt_succ_of_le hj), h, List.getElem?_take_of_lt
    (Nat.lt_succ_of_le hj)]

theorem sameFrom_of_isPrefix {l src : List Entry} (h : src <+: l) (p : ℕ) :
    SameFrom l (src.drop p) p := by
  rintro ⟨a, b⟩ hab
  obtain ⟨i, hi⟩ := List.mem_iff_getElem?.1 hab
  obtain ⟨ha, hb⟩ := List.getElem?_zip_eq_some.1 hi
  obtain ⟨m, rfl⟩ := h
  simp only [List.getElem?_drop] at ha hb
  obtain ⟨hlt, -⟩ := List.getElem?_eq_some_iff.1 ha
  rw [List.getElem?_append_left hlt, ha] at hb
  rw [Option.some.inj hb]
  exact ⟨rfl, rfl⟩

/-- A batch laid over a log from an entry of the term the sender's log had there leaves the
sender's log, as far as the log reached. -/
theorem overlay_eq_take {l src : List Entry} {p : ℕ} (hl : t.Sanctioned Entry.term l)
    (hs : t.Sanctioned Entry.term src) (hp : p < l.length)
    (ht : ∀ x ∈ l[p]?, ∀ e ∈ src[p]?, x.term = e.term) (hps : p < src.length) :
    LogManager.overlay l (src.drop p) p = src.take l.length := by
  have hx := List.getElem?_eq_getElem hp
  have he := List.getElem?_eq_getElem hps
  have hlow : ∀ j ≤ p, l[j]? = src[j]? :=
    fun j hj => getElem?_eq_of_term hl hs hx he (ht _ hx _ he) hj
  have hlen : (LogManager.overlay l (src.drop p) p).length = min src.length l.length := by
    rw [LogManager.length_overlay hp.le, List.length_drop]
    omega
  refine List.ext_getElem? fun i => ?_
  rcases lt_or_ge i (min src.length l.length) with hi | hi
  · rw [List.getElem?_take_of_lt (by omega)]
    rcases lt_or_ge i p with hip | hip
    · rw [LogManager.getElem?_overlay_of_lt hip hp.le]
      exact hlow i hip.le
    · obtain ⟨j, rfl⟩ := Nat.exists_eq_add_of_le hip
      have hxi := List.getElem?_eq_getElem (l := l) (i := p + j) (by omega)
      have hei := List.getElem?_eq_getElem (l := src) (i := p + j) (by omega)
      rw [LogManager.getElem?_overlay hp.le (by rw [List.getElem?_drop]; exact hei) hxi, hei]
      unfold LogManager.pick
      split_ifs with hsame
      · rw [← hxi, ← hei]
        exact getElem?_eq_of_term hl hs hxi hei hsame.2.symm le_rfl
      · rfl
  · rw [List.getElem?_eq_none (by omega), List.getElem?_eq_none (by rw [List.length_take]; omega)]

/-- What a winner's entries make of a log is a part of the winner's log, and the whole of it where
nothing is lost. -/
theorem laid_isPrefix {l src l' : List Entry} {p : ℕ} (hl : t.Sanctioned Entry.term l)
    (hs : t.Sanctioned Entry.term src) (hlaid : LogManager.Laid l (src.drop p) p l')
    (hm : MatchesAt l src (src.drop p) p) :
    l' <+: src ∧ (LosesNothing l (src.drop p) p → l' = src ∧ (src <+: l → src = l)) := by
  have hps : p < src.length := by
    by_contra hle
    exact hlaid.ne_nil (List.drop_eq_nil_of_le (not_lt.1 hle))
  rcases hlaid.le.lt_or_eq with hp | hp
  · obtain ⟨rfl, hfront⟩ := hlaid.inside hp
    have hf : ∀ x ∈ l[p]?, ∀ e ∈ src[p]?, x.term = e.term := by
      intro x hx e he
      exact (hfront e (by rw [List.head?_drop]; exact he) x hx).2
    rw [LogManager.laidOver_eq hp.le (hm.1 hp), overlay_eq_take hl hs hp hf hps]
    refine ⟨List.take_prefix _ _, fun hn => ?_⟩
    obtain ⟨hle, hsame⟩ := hn hp
    rw [List.length_drop] at hle hsame
    refine ⟨List.take_of_length_le (by omega), fun hpre => hpre.eq_of_length ?_⟩
    have := hsame (sameFrom_of_isPrefix hpre p)
    omega
  · obtain ⟨rfl, -⟩ := hlaid.atEnd hp
    have htake : l = src.take p := by
      rcases hback : l.getLast? with _ | back
      · rw [List.getLast?_eq_none_iff.1 hback, List.length_nil] at hp
        rw [List.getLast?_eq_none_iff.1 hback, hp, List.take_zero]
      · obtain ⟨hpos, hb⟩ := LogManager.getLast?_eq_some hback
        have he := List.getElem?_eq_getElem (l := src) (i := l.length - 1) (by omega)
        have := hl.take_eq Entry.term hs hb he (hm.2 hp _ hback _ (hp ▸ he))
        rwa [Nat.sub_add_cancel hpos, List.take_length, ← hp] at this
    have heq : l ++ src.drop p = src := by
      conv_lhs => rw [htake]
      exact List.take_append_drop p src
    refine ⟨⟨[], by rw [List.append_nil, heq]⟩, fun _ => ⟨heq, fun hpre => ?_⟩⟩
    have := hpre.length_le
    omega

end RaftFS
