import RaftFS.LogManager
import Mathlib.Data.List.Infix

/-!
# What the log's functions do

A log is `Numbered` when its entries' indices are their places, from `1`. On such a log the
binary search, the search from the end and the last index are what their names say. The batch
`Append` lays the batch over the log from the place of its first entry (`overlay`), and nothing
else as long as it reaches at most one entry past the log's end.
-/

namespace RaftFS

/-- The index of each entry is its place, from `1`. -/
def Numbered (l : List Entry) : Prop := ∀ (p : ℕ) (e : Entry), l[p]? = some e → e.index = p + 1

namespace Numbered

variable {l l' : List Entry}

theorem nil : Numbered [] := by
  intro p e he
  simp at he

theorem of_isPrefix (h : Numbered l') (hp : l <+: l') : Numbered l := by
  intro p e he
  obtain ⟨m, rfl⟩ := hp
  obtain ⟨hlt, -⟩ := List.getElem?_eq_some_iff.1 he
  exact h p e (by rw [List.getElem?_append_left hlt]; exact he)

theorem append (h : Numbered l) (h' : ∀ (j : ℕ) (e : Entry), l'[j]? = some e →
    e.index = l.length + j + 1) : Numbered (l ++ l') := by
  intro p e he
  rcases lt_or_ge p l.length with hp | hp
  · rw [List.getElem?_append_left hp] at he
    exact h p e he
  · rw [List.getElem?_append_right hp] at he
    have := h' _ _ he
    omega

theorem concat (h : Numbered l) {e : Entry} (he : e.index = l.length + 1) :
    Numbered (l ++ [e]) := by
  refine h.append fun j e' hj => ?_
  obtain ⟨hlt, hx⟩ := List.getElem?_eq_some_iff.1 hj
  obtain rfl : j = 0 := by simpa using hlt
  simp only [List.getElem_cons_zero] at hx
  rw [← hx, he]

theorem getElem?_of_mem (h : Numbered l) {e : Entry} (he : e ∈ l) : l[e.index - 1]? = some e := by
  obtain ⟨p, hp⟩ := List.mem_iff_getElem?.1 he
  rw [h p e hp]
  exact hp

theorem eq_of_index (h : Numbered l) {e e' : Entry} (he : e ∈ l) (he' : e' ∈ l)
    (hi : e.index = e'.index) : e = e' := by
  have h1 := h.getElem?_of_mem he
  rw [hi, h.getElem?_of_mem he'] at h1
  exact (Option.some.inj h1).symm

end Numbered

namespace LogManager

variable {log log' : LogManager}

section Readers

theorem getLast?_eq_some {l : List Entry} {back : Entry} (h : l.getLast? = some back) :
    0 < l.length ∧ l[l.length - 1]? = some back := by
  rw [List.getLast?_eq_getElem?] at h
  obtain ⟨hlt, -⟩ := List.getElem?_eq_some_iff.1 h
  exact ⟨by omega, h⟩

theorem back_index (hn : Numbered log.memoryLog) {back : Entry}
    (h : log.memoryLog.getLast? = some back) : back.index = log.memoryLog.length := by
  obtain ⟨hlt, hb⟩ := getLast?_eq_some h
  have := hn _ _ hb
  omega

theorem getLastLogIndex_eq (hn : Numbered log.memoryLog) :
    log.getLastLogIndex = log.memoryLog.length := by
  unfold getLastLogIndex
  rcases h : log.memoryLog.getLast? with _ | back
  · rw [List.getLast?_eq_none_iff.1 h]
    rfl
  · exact back_index hn h

theorem mem_of_getEntry {i : ℤ} {e : Entry} (h : log.getEntry i = some e) :
    e ∈ log.memoryLog ∧ (e.index : ℤ) = i := by
  unfold getEntry at h
  exact ⟨List.mem_reverse.1 (List.mem_of_find?_eq_some h), by simpa using List.find?_some h⟩

theorem getEntry_of_mem {e : Entry} (he : e ∈ log.memoryLog)
    (hu : ∀ e' ∈ log.memoryLog, e'.index = e.index → e' = e) :
    log.getEntry (e.index : ℕ) = some e := by
  rcases h : log.getEntry (e.index : ℕ) with _ | x
  · have := List.find?_eq_none.1 h e (List.mem_reverse.2 he)
    simp at this
  · obtain ⟨hx, hi⟩ := mem_of_getEntry h
    rw [hu x hx (by exact_mod_cast hi)]

theorem getEntry_eq_some_iff (hn : Numbered log.memoryLog) {i : ℕ} {e : Entry} :
    log.getEntry i = some e ↔ 0 < i ∧ log.memoryLog[i - 1]? = some e := by
  constructor
  · intro h
    obtain ⟨hm, hi⟩ := mem_of_getEntry h
    obtain ⟨p, hp⟩ := List.mem_iff_getElem?.1 hm
    have hpi := hn p e hp
    obtain rfl : i = p + 1 := by omega
    exact ⟨by omega, hp⟩
  · rintro ⟨h0, h⟩
    have hi : e.index = i := by
      have := hn _ _ h
      omega
    have hm := List.mem_of_getElem? h
    rw [← hi]
    exact getEntry_of_mem hm fun e' he' hi' => hn.eq_of_index he' hm hi'

theorem getEntry_eq (hn : Numbered log.memoryLog) {i : ℕ} (hi : 0 < i) :
    log.getEntry i = log.memoryLog[i - 1]? := by
  ext e
  rw [getEntry_eq_some_iff hn]
  simp [hi]

/-- The binary search keeps the place it looks for between `first` and `first + len`. -/
theorem lowerBound_eq {l : List Entry} (hn : Numbered l) {p : ℕ} :
    ∀ (fuel first len : ℕ), len ≤ fuel → first + len ≤ l.length → first ≤ min p l.length →
      min p l.length ≤ first + len → lowerBound l p fuel first len = min p l.length
  | 0, first, len, hf, hl, h1, h2 => by
    simp only [lowerBound]
    omega
  | fuel + 1, first, len, hf, hl, h1, h2 => by
    simp only [lowerBound]
    split_ifs with h0
    · omega
    · have hlt : first + len / 2 < l.length := by omega
      have hx := hn _ _ (List.getElem?_eq_getElem hlt)
      rw [List.getElem?_eq_getElem hlt]
      simp only
      split_ifs with hle
      · exact lowerBound_eq hn _ _ _ (by omega) (by omega) (by omega) (by omega)
      · exact lowerBound_eq hn _ _ _ (by omega) (by omega) (by omega) (by omega)

theorem getEntriesStartAt_eq (hn : Numbered log.memoryLog) (p : ℕ) :
    log.getEntriesStartAt p = log.memoryLog.drop p := by
  unfold getEntriesStartAt
  rw [lowerBound_eq hn _ _ _ le_rfl (by omega) (by omega) (by omega)]
  rcases le_total p log.memoryLog.length with h | h
  · rw [min_eq_left h]
  · rw [min_eq_right h, List.drop_length, List.drop_eq_nil_of_le h]

end Readers

section Append

/-- What the batch `Append` leaves where the log has `x` and the batch `e`. -/
def pick (e x : Entry) : Entry := if e.index = x.index ∧ e.term = x.term then x else e

@[simp] theorem pick_index (e x : Entry) : (pick e x).index = e.index := by
  unfold pick
  split_ifs with h
  · exact h.1.symm
  · rfl

@[simp] theorem pick_term (e x : Entry) : (pick e x).term = e.term := by
  unfold pick
  split_ifs with h
  · exact h.2.symm
  · rfl

theorem pick_eq_or (e x : Entry) : pick e x = x ∨ pick e x = e := by
  unfold pick
  split_ifs
  · exact .inl rfl
  · exact .inr rfl

/-- `es` laid over `l` from the place `q` on, as far as `l` reaches. -/
def overlay (l es : List Entry) (q : ℕ) : List Entry := l.take q ++ List.zipWith pick es (l.drop q)

theorem length_overlay {l es : List Entry} {q : ℕ} (hq : q ≤ l.length) :
    (overlay l es q).length = min (q + es.length) l.length := by
  simp only [overlay, List.length_append, List.length_take, List.length_zipWith, List.length_drop]
  omega

theorem getElem?_overlay_of_lt {l es : List Entry} {q p : ℕ} (hp : p < q) (hq : q ≤ l.length) :
    (overlay l es q)[p]? = l[p]? := by
  unfold overlay
  rw [List.getElem?_append_left (by rw [List.length_take]; omega), List.getElem?_take_of_lt hp]

theorem getElem?_overlay {l es : List Entry} {q j : ℕ} (hq : q ≤ l.length) {e x : Entry}
    (he : es[j]? = some e) (hx : l[q + j]? = some x) :
    (overlay l es q)[q + j]? = some (pick e x) := by
  unfold overlay
  have hlen : (l.take q).length = q := by rw [List.length_take]; omega
  rw [List.getElem?_append_right (by omega), hlen, Nat.add_sub_cancel_left, List.getElem?_zipWith,
    he, List.getElem?_drop, hx]

theorem mem_overlay {l es : List Entry} {q p : ℕ} (hq : q ≤ l.length) (hp : q ≤ p) {y : Entry}
    (hy : (overlay l es q)[p]? = some y) :
    ∃ e x, es[p - q]? = some e ∧ l[p]? = some x ∧ y = pick e x := by
  obtain ⟨hlt, -⟩ := List.getElem?_eq_some_iff.1 hy
  rw [length_overlay hq] at hlt
  have he : p - q < es.length := by omega
  have hx : p < l.length := by omega
  obtain ⟨j, rfl⟩ := Nat.exists_eq_add_of_le hp
  have hj : q + j - q = j := by omega
  rw [hj] at he
  rw [getElem?_overlay hq (List.getElem?_eq_getElem he) (List.getElem?_eq_getElem hx)] at hy
  exact ⟨_, _, by rw [hj]; exact List.getElem?_eq_getElem he, List.getElem?_eq_getElem hx,
    (Option.some.inj hy).symm⟩

theorem appendLoop_append (es es' : List Entry) : ∀ (it : ℕ) (l : List Entry),
    appendLoop (es ++ es') it l = appendLoop es' (appendLoop es it l).1 (appendLoop es it l).2 := by
  induction es with
  | nil =>
    intro it l
    rfl
  | cons e es ih =>
    intro it l
    simp only [List.cons_append, appendLoop]
    split
    · split_ifs
      · exact ih _ _
      · exact ih _ _
    · exact ih _ _

theorem appendLoop_cons_of_some {e x : Entry} {es : List Entry} {it : ℕ} {l : List Entry}
    (h : l[it]? = some x) :
    appendLoop (e :: es) it l = appendLoop es (it + 1) (l.set it (pick e x)) := by
  simp only [appendLoop, h, pick]
  split_ifs with hs
  · obtain ⟨hlt, rfl⟩ := List.getElem?_eq_some_iff.1 h
    rw [List.set_getElem_self]
  · rfl

/-- Inside the log the loop only lays the batch over it. -/
theorem appendLoop_inside : ∀ (es : List Entry) (it : ℕ) (l : List Entry),
    it + es.length ≤ l.length →
      appendLoop es it l = (it + es.length, overlay l es it ++ l.drop (it + es.length))
  | [], it, l, _ => by simp [appendLoop, overlay]
  | e :: es, it, l, h => by
    rw [List.length_cons] at h
    have hlt : it < l.length := by omega
    have hx := List.getElem?_eq_getElem hlt
    rw [appendLoop_cons_of_some hx,
      appendLoop_inside es (it + 1) _ (by rw [List.length_set]; omega)]
    have ht : (l.set it (pick e l[it])).take (it + 1) = l.take it ++ [pick e l[it]] := by
      rw [List.take_succ_eq_append_getElem (by rw [List.length_set]; exact hlt),
        List.getElem_set_self, List.take_set_of_le le_rfl]
    have hd : (l.set it (pick e l[it])).drop (it + 1) = l.drop (it + 1) :=
      List.drop_set_of_lt (by omega)
    have hd' : (l.set it (pick e l[it])).drop (it + 1 + es.length) = l.drop (it + 1 + es.length) :=
      List.drop_set_of_lt (by omega)
    simp only [overlay, ht, hd, hd', List.drop_eq_getElem_cons hlt, List.zipWith_cons_cons,
      List.length_cons, List.append_assoc, List.singleton_append]
    rw [Nat.add_right_comm it 1, Nat.add_assoc]

/-- Past the end of `l` the loop leaves `l` as it is, and what it puts there is the batch's. -/
theorem appendLoop_past : ∀ (es : List Entry) (it : ℕ) (l m : List Entry), l.length ≤ it →
    it ≤ (appendLoop es it (l ++ m)).1 ∧
      ∃ m', (appendLoop es it (l ++ m)).2 = l ++ m' ∧ ∀ x ∈ m', x ∈ m ∨ x ∈ es
  | [], it, l, m, _ => ⟨le_rfl, m, rfl, fun _ hx => .inl hx⟩
  | e :: es, it, l, m, h => by
    rcases hx : (l ++ m)[it]? with _ | x
    · simp only [appendLoop, hx]
      rw [List.append_assoc]
      obtain ⟨hle, m', hm', hmem⟩ := appendLoop_past es it l (m ++ [e]) h
      refine ⟨hle, m', hm', fun y hy => ?_⟩
      rcases hmem y hy with hy | hy
      · rcases List.mem_append.1 hy with hy | hy
        · exact .inl hy
        · exact .inr (by simp_all)
      · exact .inr (List.mem_cons_of_mem _ hy)
    · rw [appendLoop_cons_of_some hx, List.set_append_right _ _ h]
      rw [List.getElem?_append_right h] at hx
      obtain ⟨hle, m', hm', hmem⟩ :=
        appendLoop_past es (it + 1) l (m.set (it - l.length) (pick e x)) (by omega)
      refine ⟨by omega, m', hm', fun y hy => ?_⟩
      rcases hmem y hy with hy | hy
      · rcases List.mem_or_eq_of_mem_set hy with hy | hy
        · exact .inl hy
        · rcases pick_eq_or e x with hp | hp
          · rw [hy, hp]
            exact .inl (List.mem_of_getElem? hx)
          · rw [hy, hp]
            exact .inr List.mem_cons_self
      · exact .inr (List.mem_cons_of_mem _ hy)

/-- What the batch `Append` makes of a log that is not empty, where its first entry is at `q`. -/
def laidOver (l es : List Entry) (q : ℕ) : List Entry :=
  let (it, l') := appendLoop es q l
  if it ≠ l'.length then l'.take it else l'

theorem laidOver_eq_take (l es : List Entry) (q : ℕ) :
    laidOver l es q = (appendLoop es q l).2.take (appendLoop es q l).1 := by
  simp only [laidOver]
  split_ifs with h
  · rfl
  · rw [List.take_of_length_le (by omega)]

theorem laidOver_eq {l es : List Entry} {q : ℕ} (hq : q ≤ l.length)
    (h : q + es.length ≤ l.length + 1) : laidOver l es q = overlay l es q := by
  rw [laidOver_eq_take]
  rcases Nat.le_or_eq_of_le_succ h with h | h
  · have hlen : (overlay l es q).length = q + es.length := by rw [length_overlay hq]; omega
    rw [appendLoop_inside es q l h, ← hlen, List.take_left]
  · obtain ⟨es, e, rfl⟩ : ∃ es' e, es = es' ++ [e] :=
      ⟨_, _, (List.dropLast_append_getLast (by rintro rfl; simp at h; omega)).symm⟩
    rw [List.length_append, List.length_singleton] at h
    have h' : q + es.length = l.length := by omega
    have hlen : (overlay l es q).length = l.length := by rw [length_overlay hq]; omega
    have hnone : (overlay l es q)[l.length]? = none := List.getElem?_eq_none (by omega)
    rw [appendLoop_append, appendLoop_inside es q l h'.le]
    simp only [h', List.drop_length, List.append_nil, appendLoop, hnone]
    rw [← hlen, List.take_left]
    have hz : (es.zipWith pick (l.drop q)) = (es ++ [e]).zipWith pick (l.drop q ++ []) := by
      rw [List.zipWith_append (by rw [List.length_drop]; omega)]
      simp
    rw [overlay, hz, List.append_nil, overlay]

/-- A batch that reaches further is laid over the log too, and after it come some of its entries
that reach past the end. -/
theorem laidOver_eq_append {l : List Entry} (es : List Entry) {q : ℕ} (hq : q ≤ l.length) :
    ∃ m, laidOver l es q = overlay l es q ++ m ∧ ∀ e ∈ m, e ∈ es.drop (l.length - q) := by
  rcases Nat.le_total (q + es.length) l.length with h | h
  · exact ⟨[], by rw [List.append_nil, laidOver_eq hq (by omega)], fun e he => by simp at he⟩
  · have hlen : (overlay l es q).length = l.length := by rw [length_overlay hq]; omega
    have hk : q + (es.take (l.length - q)).length = l.length := by rw [List.length_take]; omega
    have hz : overlay l (es.take (l.length - q)) q = overlay l es q := by
      have hes : (es.take (l.length - q) ++ es.drop (l.length - q)).zipWith pick (l.drop q ++ []) =
          (es.take (l.length - q)).zipWith pick (l.drop q) ++
            (es.drop (l.length - q)).zipWith pick [] :=
        List.zipWith_append (by rw [List.length_drop]; omega)
      rw [List.take_append_drop, List.append_nil, List.zipWith_nil_right, List.append_nil] at hes
      rw [overlay, ← hes, overlay]
    obtain ⟨hle, m, hm, hmem⟩ :=
      appendLoop_past (es.drop (l.length - q)) l.length (overlay l es q) [] hlen.le
    rw [laidOver_eq_take, ← List.take_append_drop (l.length - q) es, appendLoop_append,
      appendLoop_inside _ _ _ hk.le]
    simp only [hk, hz, List.drop_length, hm]
    rw [List.take_append, List.take_of_length_le (by omega), List.take_append_drop]
    exact ⟨_, rfl, fun e he => (hmem e (List.mem_of_mem_take he)).resolve_left (by simp)⟩

theorem le_appendLoop : ∀ (es : List Entry) (it : ℕ) (l : List Entry),
    it ≤ (appendLoop es it l).1 ∧ l.length ≤ (appendLoop es it l).2.length
  | [], it, l => ⟨le_rfl, le_rfl⟩
  | e :: es, it, l => by
    rcases hx : l[it]? with _ | x
    · simp only [appendLoop, hx]
      have := le_appendLoop es it (l ++ [e])
      simp only [List.length_append] at this
      omega
    · rw [appendLoop_cons_of_some hx]
      have := le_appendLoop es (it + 1) (l.set it (pick e x))
      simp only [List.length_set] at this
      omega

theorem laidOver_ne_nil {l es : List Entry} {q : ℕ} (hq : q < l.length) (he : es ≠ []) :
    laidOver l es q ≠ [] := by
  obtain ⟨e, es, rfl⟩ := List.exists_cons_of_ne_nil he
  rw [laidOver_eq_take, appendLoop_cons_of_some (List.getElem?_eq_getElem hq)]
  intro h
  have := congrArg List.length h
  have := le_appendLoop es (q + 1) (l.set q (pick e l[q]))
  simp only [List.length_take, List.length_set, List.length_nil] at *
  omega

theorem firstSame_spec {l : List Entry} {front : Entry} (h : firstSame l front < l.length) :
    ∃ x, l[firstSame l front]? = some x ∧ x.index = front.index ∧ x.term = front.term := by
  have hp := List.findIdx_getElem (w := h)
  simp only [decide_eq_true_eq] at hp
  exact ⟨_, List.getElem?_eq_getElem h, hp.1.symm, hp.2.symm⟩

/-- The place from which the batch `Append` writes, if it does: the end, or the place of the
batch's first entry. -/
def appendsAt (log : LogManager) (es : List Entry) : Option ℕ :=
  match es, log.memoryLog.getLast? with
  | [], _ => none
  | _ :: _, none => some 0
  | front :: _, some back =>
    if front.index = back.index + 1 then some log.memoryLog.length
    else if firstSame log.memoryLog front < log.memoryLog.length then
      some (firstSame log.memoryLog front)
    else none

/-- `l'` is `l` with `es` written from `q` on. -/
structure Laid (l es : List Entry) (q : ℕ) (l' : List Entry) : Prop where
  ne_nil : es ≠ []
  le : q ≤ l.length
  inside : q < l.length → l' = laidOver l es q ∧ ∀ front ∈ es.head?, ∀ x ∈ l[q]?,
    x.index = front.index ∧ x.term = front.term
  atEnd : q = l.length → l' = l ++ es ∧ ∀ front ∈ es.head?, ∀ back ∈ l.getLast?,
    front.index = back.index + 1

theorem appendBatch_laid {es : List Entry} {ok : Bool} (h : log.appendBatch es = some (log', ok))
    (he : es ≠ []) :
    (∃ q, log.appendsAt es = some q ∧ ok = true ∧ Laid log.memoryLog es q log'.memoryLog ∧
        log'.lastCommitedIndex = log.lastCommitedIndex) ∨
      (log.appendsAt es = none ∧ ok = false ∧ log' = log) := by
  obtain ⟨front, rest, rfl⟩ := List.exists_cons_of_ne_nil he
  unfold appendBatch at h
  unfold appendsAt
  rcases hl : log.memoryLog.getLast? with _ | back
  · have h0 : log.memoryLog = [] := List.getLast?_eq_none_iff.1 hl
    simp only [hl, Option.some.injEq, Prod.mk.injEq] at h
    obtain ⟨rfl, rfl⟩ := h
    exact .inl ⟨0, rfl, rfl, ⟨he, Nat.zero_le _, fun h1 => by simp [h0] at h1,
      fun _ => by simp [h0]⟩, rfl⟩
  · obtain ⟨hpos, -⟩ := getLast?_eq_some hl
    simp only [hl] at h ⊢
    change (if front.index = back.index + 1 then _ else if _ then
      some ({ log with memoryLog := laidOver _ (front :: rest) _ }, true) else _) = _ at h
    split_ifs at h ⊢ with h1 h2
    · simp only [Option.some.injEq, Prod.mk.injEq] at h
      obtain ⟨rfl, rfl⟩ := h
      refine .inl ⟨_, rfl, rfl, ⟨he, le_rfl, fun h2 => absurd h2 (lt_irrefl _),
        fun _ => ⟨rfl, ?_⟩⟩, rfl⟩
      rintro _ ⟨⟩ b hb
      rw [hl] at hb
      rw [← Option.some.inj hb]
      exact h1
    · simp only [Option.some.injEq, Prod.mk.injEq] at h
      obtain ⟨rfl, rfl⟩ := h
      refine .inl ⟨_, rfl, rfl, ⟨he, h2.le, fun _ => ⟨rfl, ?_⟩,
        fun h3 => absurd h3 h2.ne⟩, rfl⟩
      rintro _ ⟨⟩ x hx
      obtain ⟨y, hy, hi, ht⟩ := firstSame_spec h2
      rw [hy] at hx
      rw [← Option.some.inj hx]
      exact ⟨hi, ht⟩
    · simp only [Option.some.injEq, Prod.mk.injEq] at h
      exact .inr ⟨rfl, h.2.symm, h.1.symm⟩

/-- A batch cut from a numbered log at `p` is written from `p` on. -/
theorem Laid.place {l src l' : List Entry} {p q : ℕ} (h : Laid l (src.drop p) q l')
    (hn : Numbered l) (hs : Numbered src) (hp : p ≤ l.length) : q = p := by
  have hlt : p < src.length := by
    by_contra hle
    exact h.ne_nil (List.drop_eq_nil_of_le (not_lt.1 hle))
  have hfront : (src.drop p).head? = some src[p] := by
    rw [List.head?_drop, List.getElem?_eq_getElem hlt]
  have hi := hs _ _ (List.getElem?_eq_getElem hlt)
  rcases h.le.lt_or_eq with hq | hq
  · have hx := List.getElem?_eq_getElem hq
    have h1 := ((h.inside hq).2 _ hfront _ hx).1
    have h2 := hn _ _ hx
    omega
  · rcases hl : l.getLast? with _ | back
    · rw [List.getLast?_eq_none_iff.1 hl, List.length_nil] at hp hq
      omega
    · obtain ⟨hpos, hb⟩ := getLast?_eq_some hl
      have h1 := (h.atEnd hq).2 _ hfront _ hl
      have h2 := hn _ _ hb
      omega

theorem Laid.mem {l es l' : List Entry} {q : ℕ} (h : Laid l es q l') {e : Entry} (he : e ∈ l') :
    e ∈ l ∨ e ∈ es := by
  rcases h.le.lt_or_eq with hq | hq
  · rw [(h.inside hq).1, laidOver_eq_take] at he
    obtain ⟨-, m, hm, hmem⟩ := appendLoop_past es q [] l (Nat.zero_le _)
    simp only [List.nil_append] at hm
    rw [hm] at he
    exact hmem e (List.mem_of_mem_take he)
  · rw [(h.atEnd hq).1] at he
    exact List.mem_append.1 he

theorem Laid.ne_nil_of {l es l' : List Entry} {q : ℕ} (h : Laid l es q l') : l' ≠ [] := by
  rcases h.le.lt_or_eq with hq | hq
  · rw [(h.inside hq).1]
    exact laidOver_ne_nil hq h.ne_nil
  · rw [(h.atEnd hq).1]
    exact List.append_ne_nil_of_right_ne_nil _ h.ne_nil

end Append

section Commit

theorem getLastCommitIndex_of_ne (h : log.memoryLog ≠ []) :
    log.getLastCommitIndex = log.lastCommitedIndex := by
  simp [getLastCommitIndex, h]

theorem getLastCommitIndex_of_eq (h : log.memoryLog = []) : log.getLastCommitIndex = 0 := by
  simp [getLastCommitIndex, h]

theorem getLastCommitIndex_le_last : log.getLastCommitIndex ≤ log.lastCommitedIndex := by
  unfold getLastCommitIndex
  split_ifs
  · exact Nat.zero_le _
  · exact le_rfl

theorem getLastCommitIndex_le (h : log.memoryLog ≠ [] → log'.memoryLog ≠ [])
    (hc : log'.lastCommitedIndex = log.lastCommitedIndex) :
    log.getLastCommitIndex ≤ log'.getLastCommitIndex := by
  by_cases hl : log.memoryLog = []
  · rw [getLastCommitIndex_of_eq hl]
    exact Nat.zero_le _
  · rw [getLastCommitIndex_of_ne hl, getLastCommitIndex_of_ne (h hl), hc]

theorem append_commit (e : Entry) :
    log.getLastCommitIndex ≤ (log.append e).1.getLastCommitIndex :=
  getLastCommitIndex_le (fun _ => by simp [append]) rfl

theorem setLastCommitIndex_spec {N : ℕ} (h : log.setLastCommitIndex N = some log') :
    log.memoryLog ≠ [] ∧ log'.memoryLog = log.memoryLog ∧
      (log' = log ∧ log.getLastLogIndex < N ∨
        log'.lastCommitedIndex = N ∧ N ≤ log.getLastLogIndex) := by
  unfold setLastCommitIndex at h
  obtain ⟨back, hb, rfl⟩ := Option.map_eq_some_iff.1 h
  have hl : log.getLastLogIndex = back.index := by simp [getLastLogIndex, hb]
  refine ⟨by rintro h0; simp [h0] at hb, ?_, ?_⟩
  · split_ifs <;> rfl
  · rw [hl]
    split_ifs with hN
    · exact .inr ⟨rfl, hN⟩
    · exact .inl ⟨rfl, by omega⟩

end Commit

end LogManager

end RaftFS
