import RaftFS.Proofs.Log
import Mathlib.Tactic.SplitIfs

/-!
# A batch that overlaps the log

What the batch `Append` is for is said by `appendSpec`. The code meets it just where the batch
stays inside the log or starts right after it (`appendBatch_spec_iff`). A batch that starts inside
and reaches past the end loses entries: the loop goes on from the place where the end was, which
an entry just pushed now holds.
-/

namespace RaftFS

namespace LogManager

variable {log : LogManager} {l es : List Entry} {f q : ℕ}

section Spec

/-- A local entry of the batch's index and term is kept in place of the batch's. -/
def keptLocal (l : List Entry) (e : Entry) : Entry :=
  (l.find? fun x => x.index = e.index ∧ x.term = e.term).getD e

/-- What a batch is meant to do to the log, and whether it is taken. -/
def appendSpec (log : LogManager) : List Entry → LogManager × Bool
  | [] => (log, true)
  | front :: es =>
    let f := front.index
    if f = log.memoryLog.length + 1 ∨ log.memoryLog[f - 1]?.map (·.term) = some front.term then
      ({ log with
        memoryLog := log.memoryLog.take (f - 1) ++ (front :: es).map (keptLocal log.memoryLog) },
        true)
    else (log, false)

theorem keptLocal_eq (hn : Numbered l) {e : Entry} {p : ℕ} (he : e.index = p + 1) :
    keptLocal l e = (l[p]?.map (pick e)).getD e := by
  unfold keptLocal
  rcases hf : l.find? (fun x => x.index = e.index ∧ x.term = e.term) with _ | x
  · rw [hf]
    rcases hx : l[p]? with _ | x
    · rfl
    · have hne := List.find?_eq_none.1 hf x (List.mem_of_getElem? hx)
      simp only [decide_eq_true_eq, not_and] at hne
      have hi := hn _ _ hx
      have hpick : pick e x = e := if_neg fun h => hne h.1.symm h.2.symm
      rw [Option.map_some, Option.getD_some, hpick]
      rfl
  · rw [hf]
    have hm := List.mem_of_find?_eq_some hf
    have hs := List.find?_some hf
    simp only [decide_eq_true_eq] at hs
    have hx := hn.getElem?_of_mem hm
    rw [hs.1, he, Nat.add_sub_cancel] at hx
    have hpick : pick e x = x := if_pos ⟨hs.1.symm, hs.2.symm⟩
    rw [hx, Option.map_some, hpick]

theorem zipWith_pick_eq (hn : Numbered l) : ∀ (es : List Entry) (q : ℕ), q + es.length ≤ l.length →
    (∀ (j : ℕ) (e : Entry), es[j]? = some e → e.index = q + j + 1) →
      List.zipWith pick es (l.drop q) = es.map (keptLocal l)
  | [], _, _, _ => rfl
  | e :: es, q, hq, he => by
    rw [List.length_cons] at hq
    have hlt : q < l.length := by omega
    have h0 : e.index = q + 1 := he 0 e rfl
    have ih := zipWith_pick_eq hn es (q + 1) (by omega) fun j e' hj => by
      have := he (j + 1) e' hj
      omega
    rw [List.drop_eq_getElem_cons hlt, List.zipWith_cons_cons, ih, List.map_cons,
      keptLocal_eq hn h0, List.getElem?_eq_getElem hlt]
    rfl

theorem map_keptLocal_of_le (hn : Numbered l) (h : ∀ e ∈ es, l.length < e.index) :
    es.map (keptLocal l) = es := by
  refine List.map_congr_left (g := id) (fun e he => ?_) |>.trans (List.map_id es)
  have hlt := h e he
  have h1 : e.index = e.index - 1 + 1 := by omega
  rw [keptLocal_eq hn h1, List.getElem?_eq_none (by omega)]
  rfl

end Spec

section Past

theorem appendLoop_fst_le : ∀ (es : List Entry) (it : ℕ) (l : List Entry),
    (appendLoop es it l).1 ≤ it + es.length
  | [], it, l => le_rfl
  | e :: es, it, l => by
    rw [List.length_cons]
    rcases hx : l[it]? with _ | x
    · simp only [appendLoop, hx]
      have := appendLoop_fst_le es it (l ++ [e])
      omega
    · rw [appendLoop_cons_of_some hx]
      have := appendLoop_fst_le es (it + 1) (l.set it (pick e x))
      omega

theorem appendLoop_fst_lt : ∀ (es : List Entry) (it : ℕ) (l : List Entry), it ≤ l.length →
    l.length < it + es.length → (appendLoop es it l).1 < it + es.length
  | [], it, l, hle, hlt => absurd hle (not_le.2 hlt)
  | e :: es, it, l, hle, hlt => by
    rw [List.length_cons] at hlt ⊢
    rcases hx : l[it]? with _ | x
    · simp only [appendLoop, hx]
      have := appendLoop_fst_le es it (l ++ [e])
      omega
    · obtain ⟨hit, -⟩ := List.getElem?_eq_some_iff.1 hx
      have hlen : (l.set it (pick e x)).length = l.length := List.length_set
      have := appendLoop_fst_lt es (it + 1) (l.set it (pick e x)) (by omega) (by omega)
      rw [appendLoop_cons_of_some hx]
      omega

theorem length_laidOver_lt (hq : q ≤ l.length) (h : l.length < q + es.length) :
    (laidOver l es q).length < q + es.length := by
  have := appendLoop_fst_lt es q l hq h
  rw [laidOver_eq_take, List.length_take]
  omega

end Past

section Front

variable {front : Entry}

/-- On a numbered log the first entry of a batch is found just at its own place. -/
theorem firstSame_lt_iff (hn : Numbered l) (hf : front.index = q + 1) :
    firstSame l front < l.length ↔ l[q]?.map (·.term) = some front.term := by
  rw [Option.map_eq_some_iff]
  constructor
  · intro h
    obtain ⟨x, hx, hi, ht⟩ := firstSame_spec h
    have hp := hn _ _ hx
    obtain rfl : firstSame l front = q := by omega
    exact ⟨x, hx, ht⟩
  · rintro ⟨x, hx, ht⟩
    refine List.findIdx_lt_length_of_exists ⟨x, List.mem_of_getElem? hx, ?_⟩
    have := hn _ _ hx
    simp only [decide_eq_true_eq]
    exact ⟨by omega, ht.symm⟩

theorem firstSame_eq (hn : Numbered l) (hf : front.index = q + 1)
    (h : firstSame l front < l.length) : firstSame l front = q := by
  obtain ⟨x, hx, hi, -⟩ := firstSame_spec h
  have := hn _ _ hx
  omega

/-- What the batch `Append` does with a batch that starts at a place of a numbered log or right
after it. -/
theorem appendBatch_eq (hn : Numbered log.memoryLog) (hf : front.index = q + 1)
    (hq : q ≤ log.memoryLog.length) :
    log.appendBatch (front :: es) =
      if q = log.memoryLog.length then
        some ({ log with memoryLog := log.memoryLog ++ front :: es }, true)
      else if log.memoryLog[q]?.map (·.term) = some front.term then
        some ({ log with memoryLog := laidOver log.memoryLog (front :: es) q }, true)
      else some (log, false) := by
  unfold appendBatch
  rcases hl : log.memoryLog.getLast? with _ | back
  · have h0 : log.memoryLog = [] := List.getLast?_eq_none_iff.1 hl
    rw [h0, List.length_nil, Nat.le_zero] at hq
    simp [h0, hq]
  · have hb := back_index hn hl
    have hsame := firstSame_lt_iff hn hf
    simp only [hb, hf, Nat.add_right_cancel_iff]
    change (if q = log.memoryLog.length then _ else if _ then
      some ({ log with memoryLog := laidOver _ (front :: es) _ }, true) else _) = _
    split_ifs with h1 h2 h3 h3
    · rfl
    · rw [firstSame_eq hn hf h2]
    · exact absurd (hsame.1 h2) h3
    · exact absurd (hsame.2 h3) h2
    · rfl

theorem laidOver_eq_spec (hn : Numbered l) (hin : q + es.length ≤ l.length)
    (he : ∀ (j : ℕ) (e : Entry), es[j]? = some e → e.index = q + j + 1) :
    laidOver l es q = l.take q ++ es.map (keptLocal l) := by
  rw [laidOver_eq (by omega) (by omega), overlay, zipWith_pick_eq hn es q hin he]

end Front

/-- On every numbered log, the batch `Append` does what it is meant to with every batch that starts
at one of the log's places or right after them, unless the batch starts inside the log, is taken,
and reaches past the end. -/
theorem appendBatch_spec_iff (hn : Numbered log.memoryLog) (hne : es ≠ []) (h1 : 1 ≤ f)
    (hf : f ≤ log.memoryLog.length + 1)
    (he : ∀ (j : ℕ) (e : Entry), es[j]? = some e → e.index = f + j) :
    log.appendBatch es = some (log.appendSpec es) ↔
      (log.memoryLog[f - 1]?.map (·.term) = es.head?.map (·.term) →
        f + es.length ≤ log.memoryLog.length + 1) := by
  obtain ⟨front, es, rfl⟩ := List.exists_cons_of_ne_nil hne
  obtain ⟨q, rfl⟩ : ∃ q, f = q + 1 := ⟨f - 1, by omega⟩
  have hq : q ≤ log.memoryLog.length := by omega
  have hfront : front.index = q + 1 := he 0 front rfl
  have he' : ∀ (j : ℕ) (e : Entry), (front :: es)[j]? = some e → e.index = q + j + 1 := by
    intro j e hj
    rw [he j e hj]
    omega
  rw [appendBatch_eq hn hfront hq]
  simp only [appendSpec, hfront, Nat.add_sub_cancel, Nat.add_right_cancel_iff, List.head?_cons,
    Option.map_some]
  by_cases hend : q = log.memoryLog.length
  · -- the batch starts right after the log
    have hkept : (front :: es).map (keptLocal log.memoryLog) = front :: es := by
      refine map_keptLocal_of_le hn fun e hm => ?_
      obtain ⟨j, hj⟩ := List.mem_iff_getElem?.1 hm
      have := he' j e hj
      omega
    have hnone : log.memoryLog[q]? = none := List.getElem?_eq_none hend.ge
    rw [if_pos hend, if_pos (.inl hend), hkept, hnone, hend, List.take_length]
    exact iff_of_true rfl fun h0 => by cases h0
  · have hlt : q < log.memoryLog.length := lt_of_le_of_ne hq hend
    rw [if_neg hend]
    by_cases hsame : log.memoryLog[q]?.map (·.term) = some front.term
    · -- the batch starts inside the log and is taken
      rw [if_pos hsame, if_pos (.inr hsame)]
      constructor
      · intro hspec _
        by_contra hpast
        have hshort : (laidOver log.memoryLog (front :: es) q).length < q + (front :: es).length :=
          length_laidOver_lt hq (by omega)
        have hlen := congrArg (fun r => r.1.memoryLog.length) (Option.some.inj hspec)
        simp only [List.length_append, List.length_take, List.length_map] at hlen
        omega
      · intro hin
        have := hin hsame
        rw [laidOver_eq_spec hn (by omega) he']
    · rw [if_neg hsame, if_neg (not_or.2 ⟨hend, hsame⟩)]
      exact iff_of_true rfl fun h0 => absurd h0 hsame

/-- A batch inside the log: the entry that conflicts is overwritten and the one after it erased. -/
theorem appendBatch_spec_inside :
    (LogManager.mk [⟨1, 1, .kMkdir, []⟩, ⟨1, 2, .kMkdir, []⟩, ⟨1, 3, .kMkdir, []⟩] 0).appendBatch
        [⟨1, 1, .kMkdir, []⟩, ⟨2, 2, .kRmdir, []⟩] =
      some (LogManager.mk [⟨1, 1, .kMkdir, []⟩, ⟨2, 2, .kRmdir, []⟩] 0, true) := by
  let log : LogManager := ⟨[⟨1, 1, .kMkdir, []⟩, ⟨1, 2, .kMkdir, []⟩, ⟨1, 3, .kMkdir, []⟩], 0⟩
  let batch : List Entry := [⟨1, 1, .kMkdir, []⟩, ⟨2, 2, .kRmdir, []⟩]
  have hn : Numbered log.memoryLog := ((Numbered.nil.concat rfl).concat rfl).concat rfl
  have hb : Numbered batch := (Numbered.nil.concat rfl).concat rfl
  have hspec : log.appendBatch batch = some (log.appendSpec batch) :=
    (appendBatch_spec_iff (f := 1) hn (by decide) le_rfl (by decide)
      fun j e hj => by rw [hb j e hj, Nat.add_comm]).2 (by decide +kernel)
  exact hspec.trans (by decide +kernel)

/-- The second entry of the batch is lost past the end of the log. -/
theorem appendBatch_loses :
    ∃ (log : LogManager) (es : List Entry), Numbered log.memoryLog ∧ es ≠ [] ∧
      (∀ (j : ℕ) (e : Entry), es[j]? = some e → e.index = 1 + j) ∧
      log.memoryLog[0]?.map (·.term) = es.head?.map (·.term) ∧
      log.appendSpec es = ({ log with memoryLog := es }, true) ∧
      log.appendBatch es = some ({ log with memoryLog := es.take 1 }, true) ∧
      log.appendBatch es ≠ some (log.appendSpec es) := by
  let batch : List Entry := [⟨1, 1, .kMkdir, []⟩, ⟨1, 2, .kMkdir, []⟩]
  have hb : Numbered batch := (Numbered.nil.concat rfl).concat rfl
  exact ⟨{ memoryLog := [⟨1, 1, .kMkdir, []⟩] }, batch, Numbered.nil.concat rfl, by decide,
    fun j e hj => by rw [hb j e hj, Nat.add_comm], by decide +kernel,
    by decide +kernel, by decide +kernel, by decide +kernel⟩

end LogManager

end RaftFS
