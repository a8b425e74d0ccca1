import LibSwish3.StringLists
import LibSwish3.Header

/-!
# Who owns a string list

Each config owns the lists its `stringlists` table points to.  `merge_stringlists` walks the
second table: a list whose key the first table has is handed to `swish_stringlist_merge`,
which releases it, and every other list is copied.  `swish_config_free` then releases every
list of the second table, so a list with a shared key is released twice.

## Main definitions

* `TableHolds` — a table of pointers leads to live lists with given words.
* `Owners` — the two tables before a merge: nothing is shared.
* `mergeAndFree` — the merge and the release that follows it, on the heap.
* `MergesOnce` — when each list is released once.
-/

namespace LibSwish3

open Runs Heaps Tables StringList

/-! ## The tables on the heap -/

/-- A `stringlists` table as it is in memory. -/
abbrev StrlistTable := HashTable Ptr

abbrev StrlistEntry := Sigma fun _ : XmlStr => Ptr

/-- `copy_strlist` -/
def copyStrlistAt (state : StringListHeap × StrlistTable) (strlist2 : StrlistEntry) :
    Swish (StringListHeap × StrlistTable) :=
  let (heap, strlists1) := state
  match strlists1.lookup strlist2.1 with
  | some strlist1 => do
    let heap ← stringlistMerge heap strlist2.2 strlist1
    pure (heap, strlists1)
  | none => do
    let heap' ← stringlistCopy heap strlist2.2
    pure (heap', strlists1.insert strlist2.1 (fresh heap))

def mergeStringlists (heap : StringListHeap) (strlists1 strlists2 : StrlistTable) :
    Swish (StringListHeap × StrlistTable) :=
  run copyStrlistAt (heap, strlists1) strlists2.entries

def freeStringlist (heap : StringListHeap) (e : StrlistEntry) : Swish StringListHeap :=
  stringlistFree heap e.2

/-- `xmlHashFree(config->stringlists, free_stringlist)` -/
def freeStringlists (heap : StringListHeap) (strlists : StrlistTable) : Swish StringListHeap :=
  run freeStringlist heap strlists.entries

/-- What a merge and the release of the second config leave behind. -/
structure MergedLists where
  heap : StringListHeap
  strlists1 : StrlistTable
  config1 : Config

/-- `swish_config_merge(c1, c2)` and `swish_config_free(c2)`.  The tables of strings and the
flags are those of the configs; the two `stringlists` tables are pointers into the heap.  The
flags are set behind the tables. -/
def mergeAndFree (heap : StringListHeap) (strlists1 strlists2 : StrlistTable)
    (c1 c2 : Config) : Swish MergedLists := do
  let (heap, strlists1) ← mergeStringlists heap strlists1 strlists2
  let config1 ← configMerge c1 c2
  let heap ← freeStringlists heap strlists2
  pure { heap, strlists1, config1 }

/-! ## Owning lists -/

/-- The pointers of a table lead to live lists, with the words `words` has for the key. -/
def TableHolds (heap : StringListHeap) (strlists : StrlistTable)
    (words : XmlStr → Option (List XmlStr)) : Prop :=
  ∀ key, match strlists.lookup key with
    | some p => ∃ sl, LiveAt heap p sl ∧ words key = some sl.word
    | none => words key = none

/-- Every list of both tables is live, and no pointer occurs twice. -/
structure Owners (heap : StringListHeap) (strlists1 strlists2 : StrlistTable)
    (words1 words2 : XmlStr → Option (List XmlStr)) : Prop where
  holds1 : TableHolds heap strlists1 words1
  holds2 : TableHolds heap strlists2 words2
  distinct1 : DistinctOn id strlists1
  distinct2 : DistinctOn id strlists2
  apart : ∀ key1 key2 p, strlists1.lookup key1 = some p → strlists2.lookup key2 ≠ some p

/-- The words of `c1` under the key, and behind them those of `c2`. -/
def joinedWords (words1 words2 : XmlStr → Option (List XmlStr)) (key : XmlStr) :
    Option (List XmlStr) :=
  match words2 key with
  | some words => some ((words1 key).getD [] ++ words)
  | none => words1 key

/-! ## Merging one list -/

/-- The state of the walk: `rest` are the entries of the second table that are still to be
visited. -/
structure Pending (heap : StringListHeap) (strlists1 : StrlistTable)
    (words1 words2 : XmlStr → Option (List XmlStr)) (rest : List StrlistEntry) : Prop where
  holds : TableHolds heap strlists1 words1
  distinct : DistinctOn id strlists1
  keys : rest.NodupKeys
  ptrs : (rest.map (·.2)).Nodup
  live : ∀ e ∈ rest, ∃ sl, LiveAt heap e.2 sl ∧ words2 e.1 = some sl.word
  apart : ∀ e ∈ rest, ∀ key, strlists1.lookup key ≠ some e.2

/-- The walk has nothing more to do with the object at `q`. -/
structure Untouched (heap : StringListHeap) (strlists1 : StrlistTable)
    (rest : List StrlistEntry) (q : Ptr) : Prop where
  lt : q < heap.length
  apart : ∀ key, strlists1.lookup key ≠ some q
  notMem : ∀ e ∈ rest, e.2 ≠ q

/-- One more list was visited: its words are stored under its key, it was released when the
key was there before, and the objects the walk is done with stay as they are. -/
structure Visited (heap : StringListHeap) (strlists1 : StrlistTable) (e : StrlistEntry)
    (rest : List StrlistEntry) (heap' : StringListHeap) (strlists1' : StrlistTable) : Prop where
  cell : if e.1 ∈ strlists1 then ReleasedAt heap' e.2 else ∃ sl, LiveAt heap' e.2 sl
  untouched : Untouched heap' strlists1' rest e.2
  frame : ∀ q, Untouched heap strlists1 (e :: rest) q →
    heap'[q]? = heap[q]? ∧ Untouched heap' strlists1' rest q
  keys : ∀ key, key ≠ e.1 → (key ∈ strlists1' ↔ key ∈ strlists1)

section Walk

variable {heap : StringListHeap} {t : StrlistTable}
  {words1 words2 : XmlStr → Option (List XmlStr)} {e : StrlistEntry} {es : List StrlistEntry}
  {words : List XmlStr} {p : Ptr} {key : XmlStr}

theorem TableHolds.of_lookup (h : TableHolds heap t words1) (hp : t.lookup key = some p) :
    ∃ sl, LiveAt heap p sl ∧ words1 key = some sl.word := by
  have hkey := h key
  rw [hp] at hkey
  exact hkey

theorem TableHolds.of_none (h : TableHolds heap t words1) (hp : t.lookup key = none) :
    words1 key = none := by
  have hkey := h key
  rw [hp] at hkey
  exact hkey

/-- A list of the table gets other words. -/
theorem TableHolds.store {sl : StringList} (h : TableHolds heap t words1)
    (hdistinct : DistinctOn id t) (hp : t.lookup key = some p) :
    TableHolds (store heap p sl) t (Function.update words1 key (some sl.word)) := by
  obtain ⟨sl₁, hsl₁, -⟩ := h.of_lookup hp
  intro k
  by_cases hk : k = key
  · rw [hk, hp, Function.update_self]
    exact ⟨sl, liveAt_store_self hsl₁, rfl⟩
  · rw [Function.update_of_ne hk]
    cases hkey : t.lookup k with
    | none => exact h.of_none hkey
    | some q =>
        obtain ⟨sl', hsl', hw'⟩ := h.of_lookup hkey
        have hqp : q ≠ p := by
          rintro rfl
          exact hk (hdistinct k key q q hkey hp rfl)
        exact ⟨sl', (liveAt_store_iff hsl₁).mpr (.inr ⟨hqp, hsl'⟩), hw'⟩

/-- A list that is not in the table is released. -/
theorem TableHolds.release {q : Ptr} (h : TableHolds heap t words1)
    (hq : ∀ key, t.lookup key ≠ some q) : TableHolds (release heap q) t words1 := by
  intro k
  cases hkey : t.lookup k with
  | none => exact h.of_none hkey
  | some p =>
      obtain ⟨sl', hsl', hw'⟩ := h.of_lookup hkey
      have hpq : p ≠ q := by
        rintro rfl
        exact hq k hkey
      exact ⟨sl', liveAt_release_iff.mpr ⟨hpq, hsl'⟩, hw'⟩

/-- A new list is put in the table. -/
theorem TableHolds.insert {sl : StringList} (h : TableHolds heap t words1) :
    TableHolds (alloc heap sl) (t.insert key (fresh heap))
      (Function.update words1 key (some sl.word)) := by
  intro k
  by_cases hk : k = key
  · rw [hk, AList.lookup_insert, Function.update_self]
    exact ⟨sl, liveAt_alloc_fresh, rfl⟩
  · rw [AList.lookup_insert_ne hk, Function.update_of_ne hk]
    cases hkey : t.lookup k with
    | none => exact h.of_none hkey
    | some q =>
        obtain ⟨sl', hsl', hw'⟩ := h.of_lookup hkey
        exact ⟨sl', hsl'.alloc, hw'⟩

theorem Pending.head_ne (h : Pending heap t words1 words2 (e :: es)) : ∀ f ∈ es, f.2 ≠ e.2 := by
  have hnd := h.ptrs
  rw [List.map_cons, List.nodup_cons] at hnd
  intro f hf heq
  exact hnd.1 (heq ▸ List.mem_map_of_mem hf)

/-- A list whose key is there already: its words go to the end of the other list, and it is
released. -/
theorem copyStrlistAt_shared (h : Pending heap t words1 words2 (e :: es))
    (hw : words2 e.1 = some words) (hp : t.lookup e.1 = some p)
    (happ : Appends ((words1 e.1).getD []) words) :
    ∃ sl, sl.word = (words1 e.1).getD [] ++ words ∧
      copyStrlistAt (heap, t) e = .ok (release (store heap p sl) e.2, t) := by
  obtain ⟨sl₁, hsl₁, hw₁⟩ := h.holds.of_lookup hp
  obtain ⟨sl₂, hsl₂, hw₂⟩ := h.live e (by simp)
  have hwords : words = sl₂.word := Option.some.inj (hw.symm.trans hw₂)
  have hne : e.2 ≠ p := by
    rintro rfl
    exact h.apart e (by simp) e.1 hp
  rw [hw₁, Option.getD_some, hwords] at happ ⊢
  have happend := append_of_appends happ
  refine ⟨⟨sl₁.word ++ sl₂.word, sl₁.max, (sl₂.word.length + sl₁.word.length) % 2 ^ 32⟩, rfl, ?_⟩
  simp only [copyStrlistAt, hp, stringlistMerge, stringlistAt_of_liveAt hsl₁,
    stringlistAt_of_liveAt hsl₂, ok_bind, if_neg hne, happend, pure_eq_ok]

/-- A list with a new key is copied. -/
theorem copyStrlistAt_fresh (h : Pending heap t words1 words2 (e :: es))
    (hw : words2 e.1 = some words) (hp : t.lookup e.1 = none)
    (happ : Appends ((words1 e.1).getD []) words) :
    ∃ sl : StringList, sl.word = (words1 e.1).getD [] ++ words ∧
      copyStrlistAt (heap, t) e = .ok (alloc heap sl, t.insert e.1 (fresh heap)) := by
  obtain ⟨sl₂, hsl₂, hw₂⟩ := h.live e (by simp)
  have hwords : words = sl₂.word := Option.some.inj (hw.symm.trans hw₂)
  rw [h.holds.of_none hp, Option.getD_none, hwords] at happ ⊢
  have hcopy := copy_of_le happ.1
  refine ⟨⟨sl₂.word, 2, sl₂.word.length⟩, rfl, ?_⟩
  simp only [copyStrlistAt, hp, stringlistCopy, stringlistAt_of_liveAt hsl₂, ok_bind, hcopy,
    pure_eq_ok]

/-- Words that cannot be added are what the walk stops at. -/
theorem copyStrlistAt_outside (h : Pending heap t words1 words2 (e :: es))
    (hw : words2 e.1 = some words) (happ : ¬ Appends ((words1 e.1).getD []) words) :
    copyStrlistAt (heap, t) e = .error (.fault .outOfBounds) := by
  obtain ⟨sl₂, hsl₂, hw₂⟩ := h.live e (by simp)
  have hwords : words = sl₂.word := Option.some.inj (hw.symm.trans hw₂)
  cases hp : t.lookup e.1 with
  | none =>
      rw [h.holds.of_none hp, Option.getD_none, hwords] at happ
      have hlong : intMax < sl₂.word.length := by
        by_contra hle
        have hmax : intMax < 2 ^ 32 := by decide
        refine happ ⟨Nat.le_of_not_lt hle, ?_⟩
        intro _
        rw [List.length_nil]
        omega
      simp only [copyStrlistAt, hp, stringlistCopy, stringlistAt_of_liveAt hsl₂, ok_bind,
        copy_of_lt hlong, error_bind]
  | some p =>
      obtain ⟨sl₁, hsl₁, hw₁⟩ := h.holds.of_lookup hp
      have hne : e.2 ≠ p := by
        rintro rfl
        exact h.apart e (by simp) e.1 hp
      rw [hw₁, Option.getD_some, hwords] at happ
      simp only [copyStrlistAt, hp, stringlistMerge, stringlistAt_of_liveAt hsl₁,
        stringlistAt_of_liveAt hsl₂, ok_bind, if_neg hne, append_of_not_appends happ, error_bind]

/-- The words of the first table when the list under `key` has been visited. -/
def storeWords (words1 : XmlStr → Option (List XmlStr)) (key : XmlStr) (words : List XmlStr) :
    XmlStr → Option (List XmlStr) :=
  Function.update words1 key (some ((words1 key).getD [] ++ words))

theorem pending_shared {sl : StringList} (h : Pending heap t words1 words2 (e :: es))
    (hp : t.lookup e.1 = some p) (hsl : sl.word = (words1 e.1).getD [] ++ words) :
    Pending (release (store heap p sl) e.2) t (storeWords words1 e.1 words) words2 es ∧
      Visited heap t e es (release (store heap p sl) e.2) t := by
  obtain ⟨sl₁, hsl₁, -⟩ := h.holds.of_lookup hp
  obtain ⟨sl₂, hsl₂, -⟩ := h.live e (by simp)
  have hep : e.2 ≠ p := by
    rintro rfl
    exact h.apart e (by simp) e.1 hp
  have hhead := h.head_ne
  have hlive : ∀ q sl', LiveAt heap q sl' → q ≠ p → q ≠ e.2 →
      LiveAt (release (store heap p sl) e.2) q sl' := by
    intro q sl' hq hqp hqe
    exact liveAt_release_iff.mpr ⟨hqe, (liveAt_store_iff hsl₁).mpr (.inr ⟨hqp, hq⟩)⟩
  have hcell : ReleasedAt (release (store heap p sl) e.2) e.2 :=
    releasedAt_release ((liveAt_store_iff hsl₁).mpr (.inr ⟨hep, hsl₂⟩))
  have hlen : (release (store heap p sl) e.2).length = heap.length := by
    rw [length_release, length_store]
  refine ⟨⟨?_, h.distinct, (List.nodupKeys_cons.mp h.keys).2, ?_, ?_, ?_⟩, ⟨?_, ?_, ?_, ?_⟩⟩
  · rw [storeWords, ← hsl]
    exact (h.holds.store h.distinct hp).release (h.apart e (by simp))
  · exact (List.nodup_cons.mp h.ptrs).2
  · intro f hf
    obtain ⟨sl', hsl', hw'⟩ := h.live f (by simp [hf])
    refine ⟨sl', hlive f.2 sl' hsl' ?_ (hhead f hf), hw'⟩
    intro hfp
    exact h.apart f (by simp [hf]) e.1 (by rw [hp, hfp])
  · intro f hf
    exact h.apart f (by simp [hf])
  · rw [if_pos (mem_of_lookup hp)]
    exact hcell
  · exact ⟨by rw [hlen]; exact hsl₂.lt, h.apart e (by simp), hhead⟩
  · intro q hq
    have hqe : q ≠ e.2 := Ne.symm (hq.notMem e (by simp))
    have hqp : q ≠ p := by
      rintro rfl
      exact hq.apart e.1 hp
    refine ⟨?_, ⟨by rw [hlen]; exact hq.lt, hq.apart, fun f hf => hq.notMem f (by simp [hf])⟩⟩
    rw [getElem?_release_ne hqe, getElem?_store_ne hqp]
  · intro key _
    exact Iff.rfl

theorem pending_fresh {sl : StringList} (h : Pending heap t words1 words2 (e :: es))
    (hp : t.lookup e.1 = none) (hsl : sl.word = (words1 e.1).getD [] ++ words) :
    Pending (alloc heap sl) (t.insert e.1 (fresh heap)) (storeWords words1 e.1 words) words2 es ∧
      Visited heap t e es (alloc heap sl) (t.insert e.1 (fresh heap)) := by
  obtain ⟨sl₂, hsl₂, -⟩ := h.live e (by simp)
  have hhead := h.head_ne
  have hnot : e.1 ∉ t := AList.lookup_eq_none.mp hp
  have hapart : ∀ q, q < heap.length → (∀ key, t.lookup key ≠ some q) →
      ∀ key, (t.insert e.1 (fresh heap)).lookup key ≠ some q := by
    intro q hlt hq key hkey
    by_cases hk : key = e.1
    · rw [hk, AList.lookup_insert] at hkey
      exact absurd (Option.some.inj hkey).symm (Nat.ne_of_lt hlt)
    · rw [AList.lookup_insert_ne hk] at hkey
      exact hq key hkey
  have hlen : ∀ q, q < heap.length → q < (alloc heap sl).length := by
    intro q hq
    rw [length_alloc]
    omega
  refine ⟨⟨?_, ?_, (List.nodupKeys_cons.mp h.keys).2, ?_, ?_, ?_⟩, ⟨?_, ?_, ?_, ?_⟩⟩
  · rw [storeWords, ← hsl]
    exact h.holds.insert
  · refine (distinctOn_insert_iff h.distinct hnot).mpr ?_
    intro key q hkey
    obtain ⟨sl', hsl', -⟩ := h.holds.of_lookup hkey
    exact hsl'.ne_fresh
  · exact (List.nodup_cons.mp h.ptrs).2
  · intro f hf
    obtain ⟨sl', hsl', hw'⟩ := h.live f (by simp [hf])
    exact ⟨sl', hsl'.alloc, hw'⟩
  · intro f hf
    obtain ⟨sl', hsl', -⟩ := h.live f (by simp [hf])
    exact hapart f.2 hsl'.lt (h.apart f (by simp [hf]))
  · rw [if_neg hnot]
    exact ⟨sl₂, hsl₂.alloc⟩
  · exact ⟨hlen _ hsl₂.lt, hapart e.2 hsl₂.lt (h.apart e (by simp)), hhead⟩
  · intro q hq
    exact ⟨getElem?_alloc_of_lt hq.lt, hlen q hq.lt, hapart q hq.lt hq.apart,
      fun f hf => hq.notMem f (by simp [hf])⟩
  · intro key hk
    simp [hk]

/-- One list is merged or copied, and the walk can go on. -/
theorem copyStrlistAt_ok (h : Pending heap t words1 words2 (e :: es))
    (hw : words2 e.1 = some words) (happ : Appends ((words1 e.1).getD []) words) :
    ∃ heap' t', copyStrlistAt (heap, t) e = .ok (heap', t') ∧
      Pending heap' t' (storeWords words1 e.1 words) words2 es ∧
      Visited heap t e es heap' t' := by
  cases hp : t.lookup e.1 with
  | none =>
      obtain ⟨sl, hsl, hstep⟩ := copyStrlistAt_fresh h hw hp happ
      exact ⟨_, _, hstep, pending_fresh h hp hsl⟩
  | some p =>
      obtain ⟨sl, hsl, hstep⟩ := copyStrlistAt_shared h hw hp happ
      exact ⟨_, _, hstep, pending_shared h hp hsl⟩

/-! ## The walk -/

/-- The words of every list still to be visited can be stored. -/
def AppendsAll (words1 words2 : XmlStr → Option (List XmlStr)) (rest : List StrlistEntry) :
    Prop :=
  ∀ e ∈ rest, ∀ words, words2 e.1 = some words → Appends ((words1 e.1).getD []) words

/-- What the first table holds when the lists of `rest` have been visited. -/
def visitedWords (words1 words2 : XmlStr → Option (List XmlStr)) (rest : List StrlistEntry)
    (key : XmlStr) : Option (List XmlStr) :=
  if ∃ e ∈ rest, e.1 = key then joinedWords words1 words2 key else words1 key

theorem joinedWords_storeWords {k : XmlStr} (hk : k ≠ key) :
    joinedWords (storeWords words1 key words) words2 k = joinedWords words1 words2 k := by
  rw [joinedWords, joinedWords, storeWords, Function.update_of_ne hk]

theorem visitedWords_storeWords (hkeys : (e :: es).NodupKeys) (hw : words2 e.1 = some words) :
    visitedWords (storeWords words1 e.1 words) words2 es =
      visitedWords words1 words2 (e :: es) := by
  funext k
  have hnot : ¬ ∃ f ∈ es, f.1 = e.1 := by
    have hkey : e.1 ∉ es.keys := (List.nodupKeys_cons.mp hkeys).1
    simpa [List.keys] using hkey
  unfold visitedWords
  by_cases hk : k = e.1
  · subst hk
    rw [if_neg hnot, if_pos ⟨e, by simp, rfl⟩, storeWords, Function.update_self, joinedWords, hw]
  · have hiff : (∃ f ∈ e :: es, f.1 = k) ↔ ∃ f ∈ es, f.1 = k := by simp [Ne.symm hk]
    rw [joinedWords_storeWords hk, storeWords, Function.update_of_ne hk]
    simp only [hiff]

theorem AppendsAll.tail (happ : AppendsAll words1 words2 (e :: es))
    (hkeys : (e :: es).NodupKeys) :
    AppendsAll (storeWords words1 e.1 words) words2 es := by
  intro f hf words' hw'
  have hne : f.1 ≠ e.1 := by
    intro heq
    exact (List.nodupKeys_cons.mp hkeys).1 (heq ▸ List.mem_keys_of_mem hf)
  rw [storeWords, Function.update_of_ne hne]
  exact happ f (by simp [hf]) words' hw'

/-- What the walk over the second table leaves behind. -/
structure Walked (heap : StringListHeap) (t : StrlistTable) (rest : List StrlistEntry)
    (words : XmlStr → Option (List XmlStr)) (heap' : StringListHeap) (t' : StrlistTable) :
    Prop where
  holds : TableHolds heap' t' words
  cells : ∀ e ∈ rest,
    if e.1 ∈ t then ReleasedAt heap' e.2 else ∃ sl, LiveAt heap' e.2 sl
  apart : ∀ e ∈ rest, ∀ key, t'.lookup key ≠ some e.2
  frame : ∀ q, Untouched heap t rest q → heap'[q]? = heap[q]? ∧ ∀ key, t'.lookup key ≠ some q

/-- The walk visits every list when all of them can be stored. -/
theorem exists_walked (h : Pending heap t words1 words2 es)
    (happ : AppendsAll words1 words2 es) :
    ∃ heap' t', run copyStrlistAt (heap, t) es = .ok (heap', t') ∧
      Walked heap t es (visitedWords words1 words2 es) heap' t' := by
  induction es generalizing heap t words1 with
  | nil =>
      refine ⟨heap, t, rfl, ⟨?_, ?_, ?_, ?_⟩⟩
      · exact h.holds
      · intro e he
        cases he
      · intro e he
        cases he
      · intro q hq
        exact ⟨rfl, hq.apart⟩
  | cons e es ih =>
      obtain ⟨sl, -, hw⟩ := h.live e (by simp)
      obtain ⟨heap₁, t₁, hstep, hpending, hvisited⟩ :=
        copyStrlistAt_ok h hw (happ e (by simp) sl.word hw)
      obtain ⟨heap₂, t₂, hrun, hwalked⟩ := ih hpending (happ.tail h.keys)
      have hkeys : e.1 ∉ es.keys := (List.nodupKeys_cons.mp h.keys).1
      have hself := hwalked.frame e.2 hvisited.untouched
      refine ⟨heap₂, t₂, by rw [run_cons_of_ok hstep, hrun], ⟨?_, ?_, ?_, ?_⟩⟩
      · rw [← visitedWords_storeWords h.keys hw]
        exact hwalked.holds
      · intro f hf
        rcases List.mem_cons.mp hf with rfl | hf
        · simp only [ReleasedAt, LiveAt, hself.1]
          exact hvisited.cell
        · have hne : f.1 ≠ e.1 := fun heq => hkeys (heq ▸ List.mem_keys_of_mem hf)
          rw [← if_congr (hvisited.keys f.1 hne) rfl rfl]
          exact hwalked.cells f hf
      · intro f hf
        rcases List.mem_cons.mp hf with rfl | hf
        · exact hself.2
        · exact hwalked.apart f hf
      · intro q hq
        obtain ⟨hcell, hq'⟩ := hvisited.frame q hq
        obtain ⟨hcell', hapart⟩ := hwalked.frame q hq'
        exact ⟨hcell'.trans hcell, hapart⟩

/-- The walk stops at the first list that cannot be stored. -/
theorem walk_outside (h : Pending heap t words1 words2 es)
    (happ : ¬ AppendsAll words1 words2 es) :
    run copyStrlistAt (heap, t) es = .error (.fault .outOfBounds) := by
  induction es generalizing heap t words1 with
  | nil => exact absurd (fun e he => (by cases he)) happ
  | cons e es ih =>
      obtain ⟨sl, -, hw⟩ := h.live e (by simp)
      by_cases hhead : Appends ((words1 e.1).getD []) sl.word
      · obtain ⟨heap₁, t₁, hstep, hpending, -⟩ := copyStrlistAt_ok h hw hhead
        rw [run_cons_of_ok hstep]
        refine ih hpending ?_
        intro hrest
        refine happ ?_
        intro f hf words' hw'
        rcases List.mem_cons.mp hf with rfl | hf
        · obtain rfl : sl.word = words' := Option.some.inj (hw.symm.trans hw')
          exact hhead
        · have hne : f.1 ≠ e.1 := fun heq =>
            (List.nodupKeys_cons.mp h.keys).1 (heq ▸ List.mem_keys_of_mem hf)
          have hfound := hrest f hf words' hw'
          rwa [storeWords, Function.update_of_ne hne] at hfound
      · exact run_cons_of_error (copyStrlistAt_outside h hw hhead)

/-! ## Releasing the second table -/

theorem freeStringlist_live {sl : StringList} (h : LiveAt heap e.2 sl) :
    freeStringlist heap e = .ok (release heap e.2) := by
  simp only [freeStringlist, stringlistFree, stringlistAt_of_liveAt h, ok_bind, pure_eq_ok]

theorem freeStringlist_released (h : ReleasedAt heap e.2) :
    freeStringlist heap e = .error (.fault .useAfterFree) := by
  simp only [freeStringlist, stringlistFree, stringlistAt_of_releasedAt h, error_bind]

/-- Live lists are released one after the other, and nothing else. -/
theorem freeStringlists_ok (hptrs : (es.map (·.2)).Nodup)
    (hlive : ∀ e ∈ es, ∃ sl, LiveAt heap e.2 sl) :
    ∃ heap', run freeStringlist heap es = .ok heap' ∧
      ∀ q, (∀ e ∈ es, e.2 ≠ q) → heap'[q]? = heap[q]? := by
  induction es generalizing heap with
  | nil => exact ⟨heap, rfl, fun _ _ => rfl⟩
  | cons e es ih =>
      obtain ⟨sl, hsl⟩ := hlive e (by simp)
      rw [List.map_cons, List.nodup_cons] at hptrs
      have hrest : ∀ f ∈ es, ∃ sl', LiveAt (release heap e.2) f.2 sl' := by
        intro f hf
        obtain ⟨sl', hsl'⟩ := hlive f (by simp [hf])
        refine ⟨sl', liveAt_release_iff.mpr ⟨?_, hsl'⟩⟩
        intro heq
        exact hptrs.1 (heq ▸ List.mem_map_of_mem hf)
      obtain ⟨heap', hrun, hframe⟩ := ih hptrs.2 hrest
      refine ⟨heap', by rw [run_cons_of_ok (freeStringlist_live hsl), hrun], ?_⟩
      intro q hq
      rw [hframe q (fun f hf => hq f (by simp [hf])),
        getElem?_release_ne (Ne.symm (hq e (by simp)))]

/-- A list that was released before is released again. -/
theorem freeStringlists_again (hptrs : (es.map (·.2)).Nodup)
    (hcells : ∀ e ∈ es, ReleasedAt heap e.2 ∨ ∃ sl, LiveAt heap e.2 sl)
    (hfreed : ∃ e ∈ es, ReleasedAt heap e.2) :
    run freeStringlist heap es =
      .error (.fault .useAfterFree) := by
  induction es generalizing heap with
  | nil =>
      obtain ⟨e, he, -⟩ := hfreed
      cases he
  | cons e es ih =>
      rw [List.map_cons, List.nodup_cons] at hptrs
      have hne : ∀ f ∈ es, f.2 ≠ e.2 := fun f hf heq => hptrs.1 (heq ▸ List.mem_map_of_mem hf)
      rcases hcells e (by simp) with he | ⟨sl, hsl⟩
      · exact run_cons_of_error (freeStringlist_released he)
      · rw [run_cons_of_ok (freeStringlist_live hsl)]
        refine ih hptrs.2 ?_ ?_
        · intro f hf
          simp only [ReleasedAt, LiveAt, getElem?_release_ne (hne f hf)]
          exact hcells f (by simp [hf])
        · obtain ⟨f, hf, hreleased⟩ := hfreed
          rcases List.mem_cons.mp hf with rfl | hf
          · exact absurd (hsl.symm.trans hreleased) (by simp)
          · refine ⟨f, hf, ?_⟩
            simp only [ReleasedAt, getElem?_release_ne (hne f hf)]
            exact hreleased

end Walk

/-! ## Merging and releasing -/

section Merging

variable {heap : StringListHeap} {t₁ t₂ : StrlistTable} {c1 c2 : Config}

/-- Both configs own their lists. -/
abbrev ConfigsOwn (heap : StringListHeap) (t₁ t₂ : StrlistTable) (c1 c2 : Config) : Prop :=
  Owners heap t₁ t₂ c1.stringlists.lookup c2.stringlists.lookup

/-- The two directives with named values have known ones, so that the flags can be set. -/
def knownModes (c : Config) : Bool :=
  (directive parseUndefMetas Swish.undefinedMetatags c.misc c.flags.undefMetas).isOk &&
    (directive parseUndefAttrs Swish.undefinedXmlAttributes c.misc c.flags.undefAttrs).isOk

/-- Each list is released once: the words fit, and no key of `c2` is one of `c1`, unless the
process stops at an unknown directive value before `c2` is released. -/
structure MergesOnce (c1 c2 : Config) : Prop where
  appends : ∀ key words, c2.stringlists.lookup key = some words →
    Appends ((c1.stringlists.lookup key).getD []) words
  once : knownModes c2 → ∀ key ∈ c2.stringlists, key ∉ c1.stringlists

/-- The process stops with a message. -/
def IsCroak (why : Halt) : Prop := ∃ msg, why = .croak msg

section Modes

variable {F : Type} {parse : XmlStr → Swish F} {key : XmlStr} {misc : HashTable XmlStr} {dflt : F}

theorem failsAs_isCroak {α : Type} (pieces : List XmlStr) :
    FailsAs IsCroak (croak pieces : Swish α) := failsAs_error ⟨_, rfl⟩

theorem failsAs_parseUndefMetas (v : XmlStr) : FailsAs IsCroak (parseUndefMetas v) := by
  rw [parseUndefMetas]
  split_ifs <;> first | exact failsAs_ok _ | exact failsAs_isCroak _

theorem failsAs_parseUndefAttrs (v : XmlStr) : FailsAs IsCroak (parseUndefAttrs v) := by
  rw [parseUndefAttrs]
  split_ifs <;> first | exact failsAs_ok _ | exact failsAs_isCroak _

theorem failsAs_directive (h : ∀ v, FailsAs IsCroak (parse v)) :
    FailsAs IsCroak (directive parse key misc dflt) := by
  rw [directive]
  split
  · exact h _
  · exact failsAs_ok _

theorem directive_parseBoolean (key : XmlStr) (misc : HashTable XmlStr) (dflt : Bool) :
    ∃ b, directive parseBoolean key misc dflt = .ok b := by
  rw [directive]
  split
  · exact ⟨_, rfl⟩
  · exact ⟨_, rfl⟩

theorem failsAs_booleanDirective (key : XmlStr) (misc : HashTable XmlStr) (dflt : Bool) :
    FailsAs IsCroak (directive parseBoolean key misc dflt) := by
  obtain ⟨b, hb⟩ := directive_parseBoolean key misc dflt
  rw [hb]
  exact failsAs_ok b

theorem configMerge_failsAs (c1 c2 : Config) : FailsAs IsCroak (configMerge c1 c2) := by
  refine (failsAs_booleanDirective _ _ _).bind fun tokenize _ => ?_
  refine (failsAs_booleanDirective _ _ _).bind fun cascade _ => ?_
  refine (failsAs_booleanDirective _ _ _).bind fun xmlns _ => ?_
  refine (failsAs_booleanDirective _ _ _).bind fun xinclude _ => ?_
  refine (failsAs_directive failsAs_parseUndefMetas).bind fun undefMetas _ => ?_
  refine (failsAs_directive failsAs_parseUndefAttrs).bind fun undefAttrs _ => ?_
  exact failsAs_ok _

theorem configMerge_returns_iff : (∃ c, configMerge c1 c2 = .ok c) ↔ knownModes c2 := by
  constructor
  · rintro ⟨c, hc⟩
    have hflags := (configMerge_ok hc).2
    rw [knownModes, hflags.undefMetas, hflags.undefAttrs]
    rfl
  · intro h
    obtain ⟨b₁, h₁⟩ := directive_parseBoolean Swish.tokenize c2.misc c2.flags.tokenize
    obtain ⟨b₂, h₂⟩ :=
      directive_parseBoolean Swish.cascadeMetaContext c2.misc c2.flags.cascadeMetaContext
    obtain ⟨b₃, h₃⟩ := directive_parseBoolean Swish.ignoreXmlns c2.misc c2.flags.ignoreXmlns
    obtain ⟨b₄, h₄⟩ :=
      directive_parseBoolean Swish.followXinclude c2.misc c2.flags.followXinclude
    rw [knownModes, Bool.and_eq_true] at h
    cases h₅ : directive parseUndefMetas Swish.undefinedMetatags c2.misc c2.flags.undefMetas with
    | error e => rw [h₅] at h; exact absurd h.1 Bool.false_ne_true
    | ok undefMetas =>
        cases h₆ : directive parseUndefAttrs Swish.undefinedXmlAttributes c2.misc
            c2.flags.undefAttrs with
        | error e => rw [h₆] at h; exact absurd h.2 Bool.false_ne_true
        | ok undefAttrs =>
            simp only [configMerge, h₁, h₂, h₃, h₄, h₅, h₆, ok_bind, pure_eq_ok]
            exact ⟨_, rfl⟩

end Modes

/-! ### The tables of two configs -/

theorem TableHolds.mem_iff {words : XmlStr → Option (List XmlStr)} (h : TableHolds heap t₁ words)
    {key : XmlStr} : key ∈ t₁ ↔ ∃ w, words key = some w := by
  rw [← AList.lookup_isSome]
  cases hkey : t₁.lookup key with
  | none => simp [h.of_none hkey]
  | some p =>
      obtain ⟨sl, -, hw⟩ := h.of_lookup hkey
      simp [hw]

theorem Owners.mem_left (h : ConfigsOwn heap t₁ t₂ c1 c2) {key : XmlStr} :
    key ∈ t₁ ↔ key ∈ c1.stringlists := by
  rw [h.holds1.mem_iff, mem_iff_exists_lookup]

theorem Owners.mem_right (h : ConfigsOwn heap t₁ t₂ c1 c2) {key : XmlStr} :
    key ∈ t₂ ↔ key ∈ c2.stringlists := by
  rw [h.holds2.mem_iff, mem_iff_exists_lookup]

theorem Owners.pending {words1 words2 : XmlStr → Option (List XmlStr)}
    (h : Owners heap t₁ t₂ words1 words2) : Pending heap t₁ words1 words2 t₂.entries := by
  refine ⟨h.holds1, h.distinct1, t₂.nodupKeys, ?_, ?_, ?_⟩
  · refine t₂.nodupKeys.nodup.map_on ?_
    rintro ⟨k, p⟩ hk ⟨k', p'⟩ hk' heq
    obtain rfl : p = p' := heq
    obtain rfl : k = k' :=
      h.distinct2 k k' p p (mem_entries_iff.mp hk) (mem_entries_iff.mp hk') rfl
    rfl
  · rintro ⟨k, p⟩ hk
    exact h.holds2.of_lookup (mem_entries_iff.mp hk)
  · rintro ⟨k, p⟩ hk key hkey
    exact h.apart key k p hkey (mem_entries_iff.mp hk)

theorem visitedWords_entries {words1 words2 : XmlStr → Option (List XmlStr)}
    (h : TableHolds heap t₂ words2) :
    visitedWords words1 words2 t₂.entries = joinedWords words1 words2 := by
  funext key
  rw [visitedWords]
  split
  · rfl
  · rename_i hnot
    have hnone : words2 key = none := by
      rw [← Option.not_isSome_iff_eq_none, Option.isSome_iff_exists, ← h.mem_iff]
      exact fun hkey => hnot (List.mem_map.mp hkey)
    rw [joinedWords, hnone]

theorem appendsAll_entries_iff {words1 words2 : XmlStr → Option (List XmlStr)}
    (h : TableHolds heap t₂ words2) :
    AppendsAll words1 words2 t₂.entries ↔
      ∀ key words, words2 key = some words → Appends ((words1 key).getD []) words := by
  constructor
  · intro happ key words hw
    obtain ⟨p, hp⟩ := mem_iff_exists_lookup.mp (h.mem_iff.mpr ⟨words, hw⟩)
    exact happ ⟨key, p⟩ (mem_entries_iff.mpr hp) words hw
  · intro happ e _ words hw
    exact happ e.1 words hw

/-- The walk over the second table, from two configs that own their lists. -/
theorem mergeStringlists_ok (h : ConfigsOwn heap t₁ t₂ c1 c2)
    (happ : ∀ key words, c2.stringlists.lookup key = some words →
      Appends ((c1.stringlists.lookup key).getD []) words) :
    ∃ heap' t', mergeStringlists heap t₁ t₂ = .ok (heap', t') ∧
      Walked heap t₁ t₂.entries
        (joinedWords c1.stringlists.lookup c2.stringlists.lookup) heap' t' := by
  obtain ⟨heap', t', hrun, hwalked⟩ :=
    exists_walked h.pending ((appendsAll_entries_iff h.holds2).mpr happ)
  rw [visitedWords_entries h.holds2] at hwalked
  exact ⟨heap', t', hrun, hwalked⟩

theorem mergeAndFree_eq {heap' : StringListHeap} {t' : StrlistTable}
    (hmerge : mergeStringlists heap t₁ t₂ = .ok (heap', t')) :
    mergeAndFree heap t₁ t₂ c1 c2 = (configMerge c1 c2 >>= fun config1 =>
      freeStringlists heap' t₂ >>= fun heap => .ok ⟨heap, t', config1⟩) := by
  rw [mergeAndFree, hmerge]
  rfl

theorem configFree_of_unshared (h : ∀ key ∈ c2.stringlists, key ∉ c1.stringlists) :
    configFree c1 c2 = .ok () := by
  refine if_neg ?_
  rw [List.any_eq_true]
  rintro ⟨key, hkey₂, hkey₁⟩
  exact h key hkey₂ (of_decide_eq_true hkey₁)

theorem configFree_of_shared {key : XmlStr} (h₂ : key ∈ c2.stringlists)
    (h₁ : key ∈ c1.stringlists) : configFree c1 c2 = .error (.fault .useAfterFree) := by
  refine if_pos ?_
  rw [List.any_eq_true]
  exact ⟨key, h₂, decide_eq_true h₁⟩

/-- The objects the first config owns stay when others are released. -/
theorem TableHolds.congr {heap' : StringListHeap} {words : XmlStr → Option (List XmlStr)}
    (h : TableHolds heap t₁ words)
    (hcells : ∀ key p, t₁.lookup key = some p → heap'[p]? = heap[p]?) :
    TableHolds heap' t₁ words := by
  intro key
  cases hkey : t₁.lookup key with
  | none => exact h.of_none hkey
  | some p =>
      obtain ⟨sl, hsl, hw⟩ := h.of_lookup hkey
      exact ⟨sl, (hcells key p hkey).trans hsl, hw⟩

/-- Without a shared key the second table can be released. -/
theorem freeStringlists_unshared {words : XmlStr → Option (List XmlStr)} {heap' : StringListHeap}
    {t' : StrlistTable} (h : ConfigsOwn heap t₁ t₂ c1 c2)
    (hwalked : Walked heap t₁ t₂.entries words heap' t')
    (hnot : ∀ key ∈ t₂, key ∉ t₁) :
    ∃ heap'', freeStringlists heap' t₂ = .ok heap'' ∧ TableHolds heap'' t' words := by
  have hlive : ∀ e ∈ t₂.entries, ∃ sl, LiveAt heap' e.2 sl := by
    intro e he
    have hcell := hwalked.cells e he
    rwa [if_neg (hnot e.1 (List.mem_keys_of_mem he))] at hcell
  obtain ⟨heap'', hfree, hframe⟩ := freeStringlists_ok h.pending.ptrs hlive
  refine ⟨heap'', hfree, hwalked.holds.congr ?_⟩
  intro key p hp
  refine hframe p ?_
  rintro e he rfl
  exact hwalked.apart e he key hp

/-- The list under a shared key is released a second time. -/
theorem freeStringlists_shared {words : XmlStr → Option (List XmlStr)} {heap' : StringListHeap}
    {t' : StrlistTable} (h : ConfigsOwn heap t₁ t₂ c1 c2)
    (hwalked : Walked heap t₁ t₂.entries words heap' t')
    (hshared : ∃ key ∈ t₂, key ∈ t₁) :
    freeStringlists heap' t₂ = .error (.fault .useAfterFree) := by
  refine freeStringlists_again h.pending.ptrs ?_ ?_
  · intro e he
    have hcell := hwalked.cells e he
    split at hcell
    · exact .inl hcell
    · exact .inr hcell
  · obtain ⟨key, hkey₂, hkey₁⟩ := hshared
    obtain ⟨p, hp⟩ := mem_iff_exists_lookup.mp hkey₂
    have he := mem_entries_iff.mpr hp
    refine ⟨⟨key, p⟩, he, ?_⟩
    have hcell := hwalked.cells _ he
    rwa [if_pos hkey₁] at hcell

/-- On the config the heap changes nothing: `configFree` stops exactly where a list is
released a second time. -/
theorem mergeAndFree_config (h : ConfigsOwn heap t₁ t₂ c1 c2)
    (happ : ∀ key words, c2.stringlists.lookup key = some words →
      Appends ((c1.stringlists.lookup key).getD []) words) :
    (mergeAndFree heap t₁ t₂ c1 c2).map MergedLists.config1 =
      configMerge c1 c2 >>= fun config1 => configFree c1 c2 >>= fun _ => .ok config1 := by
  obtain ⟨heap', t', hmerge, hwalked⟩ := mergeStringlists_ok h happ
  rw [mergeAndFree_eq hmerge]
  cases configMerge c1 c2 with
  | error e => rfl
  | ok c =>
      rw [ok_bind, ok_bind]
      by_cases honce : ∀ key ∈ t₂, key ∉ t₁
      · obtain ⟨heap'', hfree, -⟩ := freeStringlists_unshared h hwalked honce
        rw [hfree, configFree_of_unshared fun key hkey => ?_]
        · rfl
        · rw [← h.mem_left]
          exact honce key (h.mem_right.mpr hkey)
      · push Not at honce
        obtain ⟨key, hkey₂, hkey₁⟩ := honce
        rw [freeStringlists_shared h hwalked ⟨key, hkey₂, hkey₁⟩,
          configFree_of_shared (h.mem_right.mp hkey₂) (h.mem_left.mp hkey₁)]
        rfl

end Merging

/-- Merging `c2` into `c1` and releasing `c2` releases each list at most once, reads no
released one, and leaves every list of `c1` live with the words of both configs, or else stops
with a message, exactly when `MergesOnce` holds. -/
theorem mergeAndFree_iff (heap : StringListHeap) (t₁ t₂ : StrlistTable) (c1 c2 : Config)
    (h : ConfigsOwn heap t₁ t₂ c1 c2) :
    EndsWell (fun m => TableHolds m.heap m.strlists1
        (joinedWords c1.stringlists.lookup c2.stringlists.lookup)) IsCroak
        (mergeAndFree heap t₁ t₂ c1 c2) ↔
      MergesOnce c1 c2 := by
  by_cases happ : ∀ key words, c2.stringlists.lookup key = some words →
      Appends ((c1.stringlists.lookup key).getD []) words
  · obtain ⟨heap', t', hmerge, hwalked⟩ := mergeStringlists_ok h happ
    rw [mergeAndFree_eq hmerge]
    by_cases hmodes : knownModes c2
    · obtain ⟨c, hc⟩ := configMerge_returns_iff.mpr hmodes
      rw [hc, ok_bind]
      by_cases honce : ∀ key ∈ t₂, key ∉ t₁
      · obtain ⟨heap'', hfree, hholds⟩ := freeStringlists_unshared h hwalked honce
        rw [hfree, ok_bind]
        refine iff_of_true (endsWell_ok hholds) ⟨happ, ?_⟩
        intro _ key hkey
        rw [← h.mem_left]
        exact honce key (h.mem_right.mpr hkey)
      · push Not at honce
        rw [freeStringlists_shared h hwalked honce, error_bind]
        refine iff_of_false ?_ ?_
        · intro hends
          obtain ⟨msg, hmsg⟩ := hends.fails _ rfl
          cases hmsg
        · intro hm
          obtain ⟨key, hkey₂, hkey₁⟩ := honce
          exact hm.once hmodes key (h.mem_right.mp hkey₂) (h.mem_left.mp hkey₁)
    · have hfails : ∀ c, configMerge c1 c2 ≠ .ok c := fun c hc =>
        hmodes (configMerge_returns_iff.mp ⟨c, hc⟩)
      refine iff_of_true ⟨?_, ?_⟩ ⟨happ, fun hm => absurd hm hmodes⟩
      · intro m hm
        obtain ⟨c, hc, -⟩ := bind_ok_iff.mp hm
        exact absurd hc (hfails c)
      · refine (configMerge_failsAs c1 c2).bind ?_
        intro c hc
        exact absurd hc (hfails c)
  · refine iff_of_false ?_ (fun hm => happ hm.appends)
    rw [mergeAndFree, mergeStringlists, walk_outside h.pending
      (fun hall => happ ((appendsAll_entries_iff h.holds2).mp hall)), error_bind]
    intro hends
    obtain ⟨msg, hmsg⟩ := hends.fails _ rfl
    cases hmsg

/-- A list of words, in an array of its own. -/
def wordsList (words : List XmlStr) : StringList := ⟨words, words.length + 2, words.length + 2⟩

/-- A config with one list. -/
def listConfig (key : XmlStr) (words : List XmlStr) : Config :=
  { configInit with stringlists := (∅ : HashTable (List XmlStr)).insert key words }

/-- The table of such a config. -/
def listTable (key : XmlStr) (p : Ptr) : StrlistTable := (∅ : StrlistTable).insert key p

private theorem lookup_listTable {key key' : XmlStr} {p p' : Ptr}
    (h : (listTable key p).lookup key' = some p') : p' = p := by
  unfold listTable at h
  by_cases hk : key' = key
  · rw [hk, AList.lookup_insert] at h
    exact (Option.some.inj h).symm
  · rw [AList.lookup_insert_ne hk, AList.lookup_empty] at h
    cases h

private theorem holds_listTable {heap : StringListHeap} {key : XmlStr} {p : Ptr}
    {words : List XmlStr} (h : LiveAt heap p (wordsList words)) :
    TableHolds heap (listTable key p) (listConfig key words).stringlists.lookup := by
  intro key'
  rw [listTable, listConfig]
  by_cases hk : key' = key
  · subst hk
    rw [AList.lookup_insert]
    exact ⟨_, h, AList.lookup_insert _⟩
  · rw [AList.lookup_insert_ne hk]
    exact AList.lookup_insert_ne hk

private theorem distinctOn_listTable (key : XmlStr) (p : Ptr) :
    DistinctOn id (listTable key p) :=
  (distinctOn_insert_iff distinctOn_empty (AList.notMem_empty _)).mpr
    (fun _ _ h => (by simp at h))

/-- Two configs with a list each own their lists. -/
private theorem configsOwn_listTables (key₁ key₂ : XmlStr) (words₁ words₂ : List XmlStr) :
    ConfigsOwn [some (wordsList words₁), some (wordsList words₂)] (listTable key₁ 0)
      (listTable key₂ 1) (listConfig key₁ words₁) (listConfig key₂ words₂) := by
  refine ⟨holds_listTable rfl, holds_listTable rfl, distinctOn_listTable key₁ 0,
    distinctOn_listTable key₂ 1, ?_⟩
  intro key key' p h₁ h₂
  exact absurd ((lookup_listTable h₁).symm.trans (lookup_listTable h₂)) (by decide)

/-- Both configs have a list, under different keys: the second is copied and released. -/
theorem mergeAndFree_iff_lists :
    let c1 := listConfig Swish.classAttributes [lit "class", lit "id"]
    let c2 := listConfig (lit "other") [lit "lang", lit "dir"]
    EndsWell (fun m => TableHolds m.heap m.strlists1
        (joinedWords c1.stringlists.lookup c2.stringlists.lookup)) IsCroak
      (mergeAndFree [some (wordsList [lit "class", lit "id"]),
        some (wordsList [lit "lang", lit "dir"])] (listTable Swish.classAttributes 0)
        (listTable (lit "other") 1) c1 c2) := by
  intro c1 c2
  refine (mergeAndFree_iff _ _ _ c1 c2 (configsOwn_listTables _ _ _ _)).mpr ⟨?_, ?_⟩
  · intro key words hwords
    by_cases hkey : key = lit "other"
    · subst hkey
      cases hwords
      exact ⟨by decide, by decide⟩
    · have hnone : c2.stringlists.lookup key = none := AList.lookup_insert_ne hkey
      cases hnone.symm.trans hwords
  · intro _ key hkey
    rcases (AList.mem_insert _).mp hkey with rfl | hmem
    · decide
    · exact absurd hmem (AList.notMem_empty _)

/-- Both configs have class attributes: the merge releases the second list, and so does the
release of its config. -/
theorem mergeAndFree_twice :
    ¬ ∀ heap t₁ t₂ c1 c2, ConfigsOwn heap t₁ t₂ c1 c2 →
      EndsWell (fun m => TableHolds m.heap m.strlists1
        (joinedWords c1.stringlists.lookup c2.stringlists.lookup)) IsCroak
        (mergeAndFree heap t₁ t₂ c1 c2) := by
  intro h
  have hends := h _ _ _ _ _ (configsOwn_listTables Swish.classAttributes Swish.classAttributes
    [lit "class"] [lit "id"])
  obtain ⟨msg, hmsg⟩ := hends.fails (.fault .useAfterFree) rfl
  cases hmsg

end LibSwish3
