import Mathlib.Data.List.Infix
import Mathlib.Data.List.TakeWhile

/-!
# The segments of a text

A separator is an element at which a text is split.  `segments` lists the maximal runs of
elements that are no separators, the empty ones included, and says of each whether the text
ends behind it.  It is defined by one pass over the text that carries the segment begun so far,
so that a machine which reads the text element by element is described by induction along
`segmentsFrom`.  `map_fst_segments` and `mem_segments_iff` say what it lists.

`pieces` cuts a list from the left into pieces of a given length, in the same manner.

## Main definitions

* `segmentsFrom`, `segments` — the segments of a text.
* `Maximal` — a run between two parts of a text.
* `piecesFrom`, `pieces` — the pieces of a list.
* `takeWhile_eq_filter_iff` — cutting a list loses nothing.
* `joinAt`, `valuesOf` — texts behind separators, and what splitting gives of them.
-/

namespace Segments

universe u

variable {α : Type u}

/-! ## Splitting at separators -/

section Split

variable (sep : α → Bool)

/-- The segments of a text before which `w` is begun. -/
def segmentsFrom : List α → List α → List (List α × Bool)
  | w, [] => [(w, true)]
  | w, c :: rest =>
    if sep c then (w, false) :: segmentsFrom [] rest else segmentsFrom (w ++ [c]) rest

/-- The segments of a text, each with whether the text ends behind it. -/
def segments (xs : List α) : List (List α × Bool) := segmentsFrom sep [] xs

/-- `run` is a maximal run between `pre` and `post`. -/
structure Maximal (pre run post : List α) : Prop where
  free : ∀ c ∈ run, sep c = false
  before : ∀ c ∈ pre.getLast?, sep c = true
  behind : ∀ c ∈ post.head?, sep c = true

variable {sep} {c : α} {w xs run pre post rest : List α}

@[simp] theorem segmentsFrom_nil : segmentsFrom sep w [] = [(w, true)] := rfl

theorem segmentsFrom_sep (h : sep c = true) :
    segmentsFrom sep w (c :: rest) = (w, false) :: segments sep rest := by
  rw [segmentsFrom, if_pos h]
  rfl

theorem segmentsFrom_word (h : sep c = false) :
    segmentsFrom sep w (c :: rest) = segmentsFrom sep (w ++ [c]) rest := by
  rw [segmentsFrom, if_neg (by simp [h])]

/-- Without the flags the segments are what splitting at the separators gives. -/
theorem map_fst_segmentsFrom (hw : ∀ c ∈ w, sep c = false) :
    (segmentsFrom sep w xs).map Prod.fst = (w ++ xs).splitOnP sep := by
  induction xs generalizing w with
  | nil => simp [List.splitOnP_eq_singleton hw]
  | cons c rest ih =>
      by_cases hc : sep c = true
      · rw [segmentsFrom_sep hc, List.map_cons, segments, ih (by simp), List.nil_append,
          List.splitOnP_append_cons_of_forall_mem hw c hc]
      · have hword : sep c = false := by simpa using hc
        have hfree : ∀ d ∈ w ++ [c], sep d = false := by
          intro d hd
          rcases List.mem_append.mp hd with hd | hd
          · exact hw d hd
          · rw [List.mem_singleton.mp hd]
            exact hword
        rw [segmentsFrom_word hword, ih hfree, List.append_assoc]
        rfl

theorem map_fst_segments : (segments sep xs).map Prod.fst = xs.splitOnP sep :=
  map_fst_segmentsFrom (by simp)

/-- The segment that is begun is the start of one. -/
theorem exists_mem_segmentsFrom (sep : α → Bool) (w xs : List α) :
    ∃ r ∈ segmentsFrom sep w xs, w <+: r.1 := by
  induction xs generalizing w with
  | nil => exact ⟨(w, true), by simp, List.prefix_refl w⟩
  | cons c rest ih =>
      by_cases hc : sep c = true
      · exact ⟨(w, false), by simp [segmentsFrom_sep hc], List.prefix_refl w⟩
      · obtain ⟨r, hr, hpre⟩ := ih (w ++ [c])
        refine ⟨r, ?_, (List.prefix_append w [c]).trans hpre⟩
        rw [segmentsFrom_word (by simpa using hc)]
        exact hr

/-- The text ends behind a segment. -/
theorem exists_last_segment (sep : α → Bool) (xs : List α) :
    ∃ r, (r, true) ∈ segments sep xs := by
  have hlast : ∀ w, ∃ r, (r, true) ∈ segmentsFrom sep w xs := by
    induction xs with
    | nil => exact fun w => ⟨w, by simp⟩
    | cons c rest ih =>
        intro w
        by_cases hc : sep c = true
        · obtain ⟨r, hr⟩ := ih []
          exact ⟨r, by rw [segmentsFrom_sep hc]; exact List.mem_cons_of_mem _ hr⟩
        · rw [segmentsFrom_word (by simpa using hc)]
          exact ih _
  exact hlast []

/-- The segment that is begun does not decide where the text is split. -/
theorem segmentsFrom_eq_cons (sep : α → Bool) (xs : List α) :
    ∃ r atEnd others, ∀ w, segmentsFrom sep w xs = (w ++ r, atEnd) :: others := by
  induction xs with
  | nil => exact ⟨[], true, [], fun w => by simp⟩
  | cons c rest ih =>
      by_cases hc : sep c = true
      · exact ⟨[], false, segments sep rest, fun w => by simp [segmentsFrom_sep hc]⟩
      · obtain ⟨r, atEnd, others, h⟩ := ih
        refine ⟨c :: r, atEnd, others, fun w => ?_⟩
        rw [segmentsFrom_word (by simpa using hc), h, List.append_assoc]
        rfl

/-- An element that is no separator stands in a segment. -/
theorem exists_segment_of_mem (hmem : c ∈ xs) (hc : sep c = false) :
    ∃ r ∈ segmentsFrom sep w xs, c ∈ r.1 := by
  induction xs generalizing w with
  | nil => cases hmem
  | cons d rest ih =>
      by_cases hd : sep d = true
      · have hrest : c ∈ rest := by
          rcases List.mem_cons.mp hmem with rfl | h
          · rw [hc] at hd
            cases hd
          · exact h
        obtain ⟨r, hr, hcr⟩ := ih hrest (w := [])
        exact ⟨r, by rw [segmentsFrom_sep hd]; exact List.mem_cons_of_mem _ hr, hcr⟩
      · rw [segmentsFrom_word (by simpa using hd)]
        rcases List.mem_cons.mp hmem with rfl | hrest
        · obtain ⟨r, hr, hpre⟩ := exists_mem_segmentsFrom sep (w ++ [c]) rest
          exact ⟨r, hr, hpre.mem (by simp)⟩
        · exact ih hrest

/-- A run that is no separator begins the segment. -/
theorem segmentsFrom_append (hrun : ∀ c ∈ run, sep c = false) :
    segmentsFrom sep w (run ++ rest) = segmentsFrom sep (w ++ run) rest := by
  induction run generalizing w with
  | nil => simp
  | cons c run ih =>
      rw [List.cons_append, segmentsFrom_word (hrun c (by simp)),
        ih fun d hd => hrun d (by simp [hd]), List.append_assoc]
      rfl

/-- What stands behind a separator is split on its own. -/
theorem mem_segmentsFrom_append (hc : sep c = true) {r : List α × Bool}
    (hr : r ∈ segments sep rest) : r ∈ segmentsFrom sep w (pre ++ c :: rest) := by
  induction pre generalizing w with
  | nil =>
      rw [List.nil_append, segmentsFrom_sep hc]
      exact List.mem_cons_of_mem _ hr
  | cons d pre ih =>
      rw [List.cons_append]
      by_cases hd : sep d = true
      · rw [segmentsFrom_sep hd]
        exact List.mem_cons_of_mem _ ih
      · rw [segmentsFrom_word (by simpa using hd)]
        exact ih

theorem Maximal.mem_segments (h : Maximal sep pre run post) :
    (run, post.isEmpty) ∈ segments sep (pre ++ run ++ post) := by
  have hrun : (run, post.isEmpty) ∈ segments sep (run ++ post) := by
    rw [segments, segmentsFrom_append h.free, List.nil_append]
    cases post with
    | nil => simp
    | cons c post =>
        rw [segmentsFrom_sep (h.behind c rfl)]
        simp
  rw [List.append_assoc]
  cases pre using List.reverseRecOn with
  | nil => exact hrun
  | append_singleton pre c =>
      rw [List.append_assoc, List.singleton_append]
      exact mem_segmentsFrom_append (h.before c (by simp)) hrun

private theorem exists_maximal {atEnd : Bool} (hw : ∀ c ∈ w, sep c = false)
    (h : (run, atEnd) ∈ segmentsFrom sep w xs) :
    ∃ pre post, w ++ xs = pre ++ run ++ post ∧ Maximal sep pre run post ∧
      atEnd = post.isEmpty := by
  induction xs generalizing w with
  | nil =>
      simp only [segmentsFrom_nil, List.mem_singleton, Prod.mk.injEq] at h
      obtain ⟨rfl, rfl⟩ := h
      exact ⟨[], [], by simp, ⟨hw, by simp, by simp⟩, rfl⟩
  | cons c rest ih =>
      by_cases hc : sep c = true
      · rw [segmentsFrom_sep hc] at h
        rcases List.mem_cons.mp h with heq | h
        · cases heq
          exact ⟨[], c :: rest, by simp, ⟨hw, by simp, by simpa using hc⟩, rfl⟩
        · obtain ⟨pre, post, heq, hmax, hend⟩ := ih (w := []) (by simp) h
          refine ⟨w ++ c :: pre, post, ?_, ⟨hmax.free, ?_, hmax.behind⟩, hend⟩
          · rw [List.nil_append] at heq
            rw [heq]
            simp
          · intro d hd
            cases pre with
            | nil =>
                have heq : c = d := by simpa using hd
                rwa [← heq]
            | cons e pre => exact hmax.before d (by simpa [List.getLast?_append] using hd)
      · have hword : sep c = false := by simpa using hc
        rw [segmentsFrom_word hword] at h
        obtain ⟨pre, post, heq, hmax, hend⟩ := ih (w := w ++ [c]) (by
          intro d hd
          rcases List.mem_append.mp hd with hd | hd
          · exact hw d hd
          · rw [List.mem_singleton.mp hd]
            exact hword) h
        exact ⟨pre, post, by simpa using heq, hmax, hend⟩

/-- The segments are the maximal runs. -/
theorem mem_segments_iff {atEnd : Bool} :
    (run, atEnd) ∈ segments sep xs ↔
      ∃ pre post, xs = pre ++ run ++ post ∧ Maximal sep pre run post ∧ atEnd = post.isEmpty := by
  refine ⟨fun h => by simpa using exists_maximal (by simp) h, ?_⟩
  rintro ⟨pre, post, rfl, hmax, rfl⟩
  exact hmax.mem_segments

end Split

/-- What is not cut off stays. -/
theorem mem_dropWhile {p : α → Bool} {c : α} {s : List α} (hc : p c = false) :
    c ∈ s.dropWhile p ↔ c ∈ s := by
  refine ⟨fun h => List.dropWhile_subset _ h, fun h => ?_⟩
  rw [← List.takeWhile_append_dropWhile (p := p) (l := s)] at h
  rcases List.mem_append.mp h with h | h
  · have := List.mem_takeWhile_imp h
    rw [hc] at this
    cases this
  · exact h

/-! ## Cutting from the left -/

section Cut

/-- The pieces of a list before which `w` is begun. -/
def piecesFrom (k : Nat) : List α → List α → List (List α)
  | [], [] => []
  | w, [] => [w]
  | w, c :: rest =>
    if k ≤ w.length + 1 then (w ++ [c]) :: piecesFrom k [] rest else piecesFrom k (w ++ [c]) rest

/-- Cut a list from the left into pieces of `k` elements; the last may be shorter. -/
def pieces (k : Nat) (xs : List α) : List (List α) := piecesFrom k [] xs

variable {k : Nat} {c : α} {w xs rest : List α}

@[simp] theorem pieces_nil : pieces k ([] : List α) = [] := rfl

theorem piecesFrom_nil (hw : w ≠ []) : piecesFrom k w [] = [w] := by
  cases w with
  | nil => exact absurd rfl hw
  | cons c w => rfl

theorem piecesFrom_full (h : k ≤ w.length + 1) :
    piecesFrom k w (c :: rest) = (w ++ [c]) :: pieces k rest := by
  cases w with
  | nil => rw [piecesFrom, if_pos h, pieces]
  | cons d w => rw [piecesFrom, if_pos h, pieces]

theorem piecesFrom_grow (h : w.length + 1 < k) :
    piecesFrom k w (c :: rest) = piecesFrom k (w ++ [c]) rest := by
  cases w with
  | nil => rw [piecesFrom, if_neg (Nat.not_le.mpr h)]
  | cons d w => rw [piecesFrom, if_neg (Nat.not_le.mpr h)]

/-- A piece is what is left of `k` elements, if there is more. -/
theorem piecesFrom_eq_take (hw : w.length < k) (hne : w ++ xs ≠ []) :
    piecesFrom k w xs = (w ++ xs).take k :: pieces k ((w ++ xs).drop k) := by
  induction xs generalizing w with
  | nil =>
      rw [List.append_nil] at hne ⊢
      rw [piecesFrom_nil hne, List.take_of_length_le hw.le, List.drop_of_length_le hw.le,
        pieces_nil]
  | cons c rest ih =>
      by_cases hfull : k ≤ w.length + 1
      · have hlen : (w ++ [c]).length = k := by
          rw [List.length_append, List.length_singleton]
          omega
        rw [piecesFrom_full hfull, ← List.singleton_append (l := rest), ← List.append_assoc,
          List.take_left' hlen, List.drop_left' hlen]
      · rw [piecesFrom_grow (by omega), ih (by simp; omega) (by simp), List.append_assoc]
        rfl

/-- A list that is no longer than a piece is one. -/
theorem pieces_of_length_le (hne : xs ≠ []) (hlen : xs.length ≤ k) : pieces k xs = [xs] := by
  have hk : 0 < k := (List.length_pos_iff.mpr hne).trans_le hlen
  rw [pieces, piecesFrom_eq_take hk (by simpa), List.nil_append, List.take_of_length_le hlen,
    List.drop_of_length_le hlen, pieces_nil]

theorem pieces_append (xs : List α) (hlen : w.length = k) (hk : 0 < k) :
    pieces k (w ++ xs) = w :: pieces k xs := by
  have hne : w ≠ [] := List.length_pos_iff.mp (hlen ▸ hk)
  rw [pieces, piecesFrom_eq_take hk (by simp [hne]), List.nil_append, List.take_left' hlen,
    List.drop_left' hlen]

private theorem length_le_of_mem_piecesFrom {p : List α} (hw : w.length < k)
    (hp : p ∈ piecesFrom k w xs) : p.length ≤ k := by
  induction xs generalizing w with
  | nil =>
      cases w with
      | nil => cases hp
      | cons c w =>
          rw [List.mem_singleton.mp hp]
          exact hw.le
  | cons c rest ih =>
      by_cases hfull : k ≤ w.length + 1
      · rw [piecesFrom_full hfull] at hp
        rcases List.mem_cons.mp hp with rfl | hp
        · rw [List.length_append, List.length_singleton]
          omega
        · exact ih (w := []) (by rw [List.length_nil]; omega) hp
      · rw [piecesFrom_grow (by omega)] at hp
        exact ih (by rw [List.length_append, List.length_singleton]; omega) hp

/-- No piece is too long. -/
theorem length_le_of_mem_pieces {p : List α} (hk : 0 < k) (hp : p ∈ pieces k xs) :
    p.length ≤ k := length_le_of_mem_piecesFrom (w := []) hk hp

theorem pieces_eq_take (hk : 0 < k) (hne : xs ≠ []) :
    pieces k xs = xs.take k :: pieces k (xs.drop k) := by
  simpa [pieces] using piecesFrom_eq_take (w := []) hk hne

end Cut

/-! ## Cutting at the first element that fails -/

/-- Dropping from the first element that fails drops what a filter would keep, unless nothing
behind it passes. -/
theorem takeWhile_eq_filter_iff (p : α → Bool) (l : List α) :
    l.takeWhile p = l.filter p ↔ l.Pairwise fun a b => p a = false → p b = false := by
  induction l with
  | nil => simp
  | cons a l ih =>
      rw [List.pairwise_cons]
      cases ha : p a with
      | true => simp [ha, ih]
      | false =>
          rw [List.takeWhile_cons_of_neg (by simp [ha]), List.filter_cons_of_neg (by simp [ha])]
          refine ⟨fun h => ?_, fun h => ?_⟩
          · have hall : ∀ b ∈ l, p b = false := by
              simpa [List.filter_eq_nil_iff] using h.symm
            refine ⟨fun b hb _ => hall b hb, ?_⟩
            exact List.pairwise_of_forall_mem_list fun _ _ b hb _ => hall b hb
          · refine (List.filter_eq_nil_iff.mpr fun b hb => ?_).symm
            simp [h.1 b hb rfl]

/-! ## Joining -/

section Join

variable {sep : α} {buf text : List α} {texts : List (List α)}

/-- Append a text, behind a separator where something stands in front. -/
def joinAt (sep : α) (buf text : List α) : List α := if buf = [] then text else buf ++ sep :: text

theorem foldl_joinAt_eq_nil_iff : texts.foldl (joinAt sep) [] = [] ↔ ∀ t ∈ texts, t = [] := by
  induction texts using List.reverseRecOn with
  | nil => simp
  | append_singleton texts t ih =>
      rw [List.foldl_concat, List.forall_mem_append, List.forall_mem_singleton, ← ih, joinAt]
      split
      · rename_i h
        exact (and_iff_right h).symm
      · rename_i h
        exact iff_of_false (by simp) fun hall => h hall.1

variable [DecidableEq α]

/-- The values that splitting gives.  An empty text has none. -/
def valuesOf (sep : α) (buf : List α) : List (List α) :=
  if buf = [] then [] else buf.splitOn sep

/-- Behind another text a text is split on its own. -/
theorem valuesOf_joinAt (h : buf ≠ []) :
    valuesOf sep (joinAt sep buf text) = valuesOf sep buf ++ text.splitOn sep := by
  rw [joinAt, if_neg h, valuesOf, if_neg (by simp [h]), List.splitOn_append_cons_self, valuesOf,
    if_neg h]

theorem length_splitOn_pos : 0 < (text.splitOn sep).length :=
  List.length_pos_iff.mpr (List.splitOn_ne_nil sep text)

/-- Only a text without a separator is one value. -/
theorem length_splitOn_eq_one_iff : (text.splitOn sep).length = 1 ↔ sep ∉ text := by
  refine ⟨fun hlen hmem => ?_, fun h => by rw [List.splitOn_eq_singleton h, List.length_singleton]⟩
  obtain ⟨pre, post, rfl⟩ := List.append_of_mem hmem
  have hpre : 0 < (pre.splitOn sep).length := length_splitOn_pos
  have hpost : 0 < (post.splitOn sep).length := length_splitOn_pos
  rw [List.splitOn_append_cons_self, List.length_append] at hlen
  omega

theorem splitOn_eq_singleton_iff : text.splitOn sep = [text] ↔ sep ∉ text :=
  ⟨fun h => length_splitOn_eq_one_iff.mp (by rw [h, List.length_singleton]),
    List.splitOn_eq_singleton⟩

/-- Splitting gives a value for each text that is not empty, and more where it goes wrong. -/
theorem length_filter_le_valuesOf :
    (texts.filter (· ≠ [])).length ≤ (valuesOf sep (texts.foldl (joinAt sep) [])).length := by
  induction texts using List.reverseRecOn with
  | nil => simp
  | append_singleton texts t ih =>
      have hsplit : 0 < (t.splitOn sep).length := length_splitOn_pos
      have hone : ([t].filter (· ≠ [])).length ≤ 1 := List.length_filter_le _ _
      rw [List.foldl_concat, List.filter_append, List.length_append]
      by_cases hnil : texts.foldl (joinAt sep) [] = []
      · have hnone : texts.filter (· ≠ []) = [] := by
          simpa using foldl_joinAt_eq_nil_iff.mp hnil
        rw [hnil, hnone, joinAt, if_pos rfl, valuesOf, List.length_nil, Nat.zero_add]
        split
        · rename_i ht
          simp [ht]
        · exact hone.trans hsplit
      · rw [valuesOf_joinAt hnil, List.length_append]
        omega

/-- The first text that is not empty. -/
theorem valuesOf_first_iff {t : List α} (hempty : ∀ u ∈ texts, u = []) :
    valuesOf sep ((texts ++ [t]).foldl (joinAt sep) []) = (texts ++ [t]).filter (· ≠ []) ↔
      sep ∉ t := by
  have hnone : texts.filter (· ≠ []) = [] := by simpa using hempty
  rw [List.foldl_concat, foldl_joinAt_eq_nil_iff.mpr hempty, List.filter_append, hnone,
    List.nil_append, joinAt, if_pos rfl, valuesOf]
  by_cases ht : t = []
  · simp [ht]
  · rw [if_neg ht, List.filter_cons_of_pos (by simpa using ht), List.filter_nil,
      splitOn_eq_singleton_iff]

/-- A text behind another: an empty one adds a value. -/
theorem valuesOf_next_iff {t : List α} (hnil : texts.foldl (joinAt sep) [] ≠ []) :
    valuesOf sep ((texts ++ [t]).foldl (joinAt sep) []) = (texts ++ [t]).filter (· ≠ []) ↔
      valuesOf sep (texts.foldl (joinAt sep) []) = texts.filter (· ≠ []) ∧ t ≠ [] ∧ sep ∉ t := by
  have hle : (texts.filter (· ≠ [])).length ≤
      (valuesOf sep (texts.foldl (joinAt sep) [])).length := length_filter_le_valuesOf
  have hsplit : 0 < (t.splitOn sep).length := length_splitOn_pos
  rw [List.foldl_concat, valuesOf_joinAt hnil, List.filter_append]
  constructor
  · intro heq
    have hlength := congrArg List.length heq
    rw [List.length_append, List.length_append] at hlength
    by_cases ht : t = []
    · subst ht
      rw [List.filter_cons_of_neg (by simp), List.filter_nil, List.length_nil] at hlength
      omega
    · rw [List.filter_cons_of_pos (by simpa using ht), List.filter_nil] at heq hlength
      rw [List.length_singleton] at hlength
      obtain ⟨hvalues, hlast⟩ := List.append_inj' heq (by rw [List.length_singleton]; omega)
      exact ⟨hvalues, ht, splitOn_eq_singleton_iff.mp hlast⟩
  · rintro ⟨hvalues, ht, hsep⟩
    rw [hvalues, List.splitOn_eq_singleton hsep, List.filter_cons_of_pos (by simpa using ht),
      List.filter_nil]

/-- The values are the texts that are not empty, in their order, if and only if no text has a
separator and no empty one stands behind another. -/
theorem valuesOf_foldl_joinAt_iff :
    valuesOf sep (texts.foldl (joinAt sep) []) = texts.filter (· ≠ []) ↔
      (∀ t ∈ texts, sep ∉ t) ∧ texts.Pairwise fun t u => t ≠ [] → u ≠ [] := by
  induction texts using List.reverseRecOn with
  | nil => simp [valuesOf]
  | append_singleton texts t ih =>
      rw [List.forall_mem_append, List.forall_mem_singleton, List.pairwise_append]
      by_cases hempty : ∀ u ∈ texts, u = []
      · rw [valuesOf_first_iff hempty]
        constructor
        · intro hsep
          refine ⟨⟨fun u hu => by simp [hempty u hu], hsep⟩, ?_, List.pairwise_singleton _ _,
            fun u hu _ _ hne => absurd (hempty u hu) hne⟩
          exact List.pairwise_of_forall_mem_list fun u hu _ _ hne => absurd (hempty u hu) hne
        · exact fun h => h.1.2
      · rw [valuesOf_next_iff (mt foldl_joinAt_eq_nil_iff.mp hempty), ih]
        constructor
        · rintro ⟨⟨hseps, hpairs⟩, ht, hsep⟩
          refine ⟨⟨hseps, hsep⟩, hpairs, List.pairwise_singleton _ _, fun _ _ v hv _ => ?_⟩
          rwa [List.mem_singleton.mp hv]
        · rintro ⟨⟨hseps, hsep⟩, hpairs, -, hcross⟩
          obtain ⟨u, hu, hne⟩ : ∃ u ∈ texts, u ≠ [] := by simpa using hempty
          exact ⟨⟨hseps, hpairs⟩, hcross u hu t (by simp) hne, hsep⟩

end Join

end Segments
