import LibSwish3.IndexedTerms
import LibSwish3.Sax

/-!
# An index over its runs

What an index is for is to have one document for each URI: the one that came last, and told to
skip duplicates the one that came first.  `DocumentMap` and `mapStep` say so, and `run_refines`
that the database does it, over any number of runs of the program and in any order of calls.  The
one way out is the `catch` of `handler`: when replacing throws, it adds the document beside the
one that is there.

A document keeps its number for as long as it is only replaced.  So `updated` marks those of the
numbers given out before whose documents have come again (`run_updated`).

## Main definitions

* `DocumentMap`, `mapStep` — an index as it is meant.
* `Refines` — the database holds the map.
* `Replaceable` — replacing does not throw where there is something to replace.
* `run_refines`, `run_updated`.
-/

namespace LibSwish3

open Records Runs Tables

/-- A document for each URI. -/
structure DocumentMap where
  documentOf : XmlStr → Option Document
  skipDuplicates : Bool

/-- There is no index yet. -/
def DocumentMap.init : DocumentMap := ⟨fun _ => none, false⟩

variable (env : IndexEnv)

/-- What a call means for the documents. -/
def mapStep (m : DocumentMap) : IndexOp → DocumentMap
  | .openIndex overwrite skipDuplicates =>
    ⟨if overwrite then fun _ => none else m.documentOf, skipDuplicates⟩
  | .handle parsed =>
    let uri := parsed.data.docinfo.uri
    if m.skipDuplicates ∧ (m.documentOf uri).isSome then m
    else { m with
      documentOf := Function.update m.documentOf uri (newDocument env parsed).toOption }
  | .delete uri => { m with documentOf := Function.update m.documentOf uri none }

/-- The database holds the map, and every document in it was made by `handler`. -/
structure Refines (st : IndexState env.xapian) (m : DocumentMap) : Prop where
  holds : Represents Document.uri (env.xapian.view st.wdb) m.documentOf
  made : ∀ n doc, env.xapian.document st.wdb n = some doc →
    ∃ parsed, newDocument env parsed = .ok doc
  skips : m.skipDuplicates = st.skipDuplicates

/-- Where there is a document of that URI, replacing it does not throw. -/
def Replaceable (st : IndexState env.xapian) : IndexOp → Prop
  | .handle parsed =>
    let term := uniqueId parsed.data.docinfo.uri
    ∀ doc, newDocument env parsed = .ok doc → st.skipDuplicates = false →
      env.xapian.termExists st.wdb term = true →
      (env.xapian.replaceDocument st.wdb term doc).isSome = true
  | .openIndex _ _ | .delete _ => True

variable {env} {st st' : IndexState env.xapian} {m : DocumentMap} {ops : List IndexOp}
  {parsed : Parsed} {doc : Document} {uri : XmlStr}

/-- What `handler` does: it makes a document and stores it. -/
theorem handler_ok (h : handler env st parsed = .ok st') :
    ∃ doc, newDocument env parsed = .ok doc ∧
      storeDocument env.xapian st (uniqueId parsed.data.docinfo.uri) doc = .ok st' := by
  obtain ⟨doc, hdoc, hstore⟩ := bind_ok_iff.mp h
  exact ⟨doc, mapError_ok_iff.mp hdoc, hstore⟩

/-- How a document is stored. -/
theorem storeDocument_cases {X : Xapian} {st st' : IndexState X} {term : XmlStr}
    (h : storeDocument X st term doc = .ok st') :
    (st.skipDuplicates = false ∧ ∃ did wdb,
        X.replaceDocument st.wdb term doc = some (did, wdb) ∧ st'.wdb = wdb ∧
        st'.skipDuplicates = st.skipDuplicates ∧
        st'.updated = st.updated.set did true ∧
        st'.outcomes = st.outcomes ++ [if did < st.updated.length then .updated else .added]) ∨
      (st.skipDuplicates = false ∧ X.replaceDocument st.wdb term doc = none ∧ ∃ did wdb,
        X.addDocument st.wdb doc = some (did, wdb) ∧ st' = st.say wdb .addedAgain) ∨
      (st.skipDuplicates = true ∧ X.termExists st.wdb term = true ∧
        st' = st.say st.wdb .skipped) ∨
      (st.skipDuplicates = true ∧ X.termExists st.wdb term = false ∧ ∃ did wdb,
        X.addDocument st.wdb doc = some (did, wdb) ∧ st' = st.say wdb .added) := by
  unfold storeDocument at h
  cases hskip : st.skipDuplicates with
  | false =>
      rw [hskip] at h
      simp only [Bool.not_false, if_true] at h
      cases hreplace : X.replaceDocument st.wdb term doc with
      | some found =>
          obtain ⟨did, wdb⟩ := found
          rw [hreplace] at h
          refine .inl ⟨rfl, did, wdb, rfl, ?_⟩
          by_cases hdid : did < st.updated.length
          · simp only [if_pos hdid] at h
            cases h
            exact ⟨rfl, hskip, rfl, by rw [if_pos hdid]; rfl⟩
          · simp only [if_neg hdid] at h
            cases h
            refine ⟨rfl, hskip, ?_, by rw [if_neg hdid]; rfl⟩
            exact (List.set_eq_of_length_le (Nat.le_of_not_lt hdid)).symm
      | none =>
          rw [hreplace] at h
          cases hadd : X.addDocument st.wdb doc with
          | none => simp only [hadd] at h; cases h
          | some added =>
              simp only [hadd] at h
              cases h
              exact .inr (.inl ⟨rfl, rfl, added.1, added.2, rfl, rfl⟩)
  | true =>
      rw [hskip] at h
      simp only [Bool.not_true, Bool.false_eq_true, if_false] at h
      cases hexists : X.termExists st.wdb term with
      | true =>
          rw [hexists, if_pos rfl] at h
          cases h
          exact .inr (.inr (.inl ⟨rfl, rfl, rfl⟩))
      | false =>
          rw [hexists] at h
          simp only [Bool.false_eq_true, if_false] at h
          cases hadd : X.addDocument st.wdb doc with
          | none => simp only [hadd] at h; cases h
          | some added =>
              simp only [hadd] at h
              cases h
              exact .inr (.inr (.inr ⟨rfl, rfl, added.1, added.2, rfl, rfl⟩))

theorem deleteDocument_cases {X : Xapian} {st st' : IndexState X}
    (h : deleteDocument X st uri = .ok st') :
    (X.termExists st.wdb (uniqueId uri) = true ∧ ∃ wdb,
        X.deleteDocument st.wdb (uniqueId uri) = some wdb ∧ st' = st.say wdb .deleted) ∨
      X.termExists st.wdb (uniqueId uri) = false ∧ st' = st.say st.wdb .notThere := by
  unfold deleteDocument at h
  cases hexists : X.termExists st.wdb (uniqueId uri) with
  | true =>
      rw [hexists, if_pos rfl] at h
      cases hdel : X.deleteDocument st.wdb (uniqueId uri) with
      | none => rw [hdel] at h; cases h
      | some wdb =>
          rw [hdel] at h
          cases h
          exact .inl ⟨rfl, wdb, rfl, rfl⟩
  | false =>
      rw [hexists] at h
      simp only [Bool.false_eq_true, if_false] at h
      cases h
      exact .inr ⟨rfl, rfl⟩

/-- What holds of every document, and of the one that is made, holds of every document
afterwards. -/
theorem indexStep_each {Q : Document → Prop} {op : IndexOp} (hX : env.xapian.Documented)
    (h : ∀ n doc, env.xapian.document st.wdb n = some doc → Q doc)
    (hnew : ∀ parsed doc, op = .handle parsed → newDocument env parsed = .ok doc → Q doc)
    (hok : indexStep env st op = .ok st') :
    ∀ n doc, env.xapian.document st'.wdb n = some doc → Q doc := by
  cases op with
  | openIndex overwrite skipDuplicates =>
      cases hok
      cases overwrite with
      | false => exact h
      | true =>
          intro n doc hget
          cases (hX.created n).symm.trans hget
  | handle parsed =>
      obtain ⟨doc, hdoc, hstore⟩ := handler_ok hok
      have hQ := hnew parsed doc rfl hdoc
      rcases storeDocument_cases hstore with ⟨-, did, wdb, hreplace, rfl, -⟩ |
          ⟨-, -, did, wdb, hadd, rfl⟩ | ⟨-, -, rfl⟩ | ⟨-, -, did, wdb, hadd, rfl⟩
      · exact (hX.replaceDocument _ _ _ _ _ hreplace).each hQ h
      · exact (hX.addDocument _ _ _ _ hadd).each hQ h
      · exact h
      · exact (hX.addDocument _ _ _ _ hadd).each hQ h
  | delete uri =>
      rcases deleteDocument_cases hok with ⟨-, wdb, hdel, rfl⟩ | ⟨-, rfl⟩
      · exact (hX.deleteDocument _ _ _ hdel).each h
      · exact h

/-! ## The map -/

/-- In such a database the term of a URI is that of its document. -/
theorem Refines.hasTerm_iff (hX : env.xapian.Documented) (h : Refines env st m) (uri : XmlStr) :
    ∀ n doc, (env.xapian.view st.wdb).get n = some doc →
      (env.xapian.hasTerm doc (uniqueId uri) ↔ doc.uri = uri) := by
  intro n doc hget
  obtain ⟨parsed, hnew⟩ := h.made n doc hget
  rw [(newDocument_ok hnew).hasTerm_uniqueId_iff hX, (newDocument_ok hnew).uri_eq]

theorem Refines.termExists_iff (hX : env.xapian.Documented) (h : Refines env st m) :
    env.xapian.termExists st.wdb (uniqueId uri) = true ↔ (m.documentOf uri).isSome = true := by
  rw [hX.termExists, Option.isSome_iff_exists]
  constructor
  · rintro ⟨n, doc, hget, hterm⟩
    exact ⟨doc, (h.holds.map uri doc).mpr ⟨(h.hasTerm_iff hX uri n doc hget).mp hterm, n, hget⟩⟩
  · rintro ⟨doc, hdoc⟩
    obtain ⟨hkey, n, hget⟩ := (h.holds.map uri doc).mp hdoc
    exact ⟨n, doc, hget, (h.hasTerm_iff hX uri n doc hget).mpr hkey⟩

theorem Refines.termExists_false (hX : env.xapian.Documented) (h : Refines env st m)
    (hnot : env.xapian.termExists st.wdb (uniqueId uri) = false) : m.documentOf uri = none := by
  cases hdoc : m.documentOf uri with
  | none => rfl
  | some doc =>
      have hsome : env.xapian.termExists st.wdb (uniqueId uri) = true :=
        (h.termExists_iff hX).mpr (by rw [hdoc]; rfl)
      exact absurd (hnot.symm.trans hsome) (by decide)

/-- A document that is stored is what the map has for its URI from then on. -/
theorem mapStep_handle (hnew : newDocument env parsed = .ok doc)
    (hnot : ¬(m.skipDuplicates ∧ (m.documentOf parsed.data.docinfo.uri).isSome)) :
    mapStep env m (.handle parsed) =
      { m with documentOf := Function.update m.documentOf doc.uri (some doc) } := by
  simp only [mapStep, if_neg hnot, hnew, (newDocument_ok hnew).uri_eq]
  rfl

/-- Storing a document leaves the database holding the map with the document in it. -/
theorem storeDocument_holds (hX : env.xapian.Documented) (h : Refines env st m)
    (hrep : Replaceable env st (.handle parsed)) (hnew : newDocument env parsed = .ok doc)
    (hok : storeDocument env.xapian st (uniqueId parsed.data.docinfo.uri) doc = .ok st') :
    Represents Document.uri (env.xapian.view st'.wdb) (mapStep env m (.handle parsed)).documentOf ∧
      st'.skipDuplicates = st.skipDuplicates := by
  have huri := (newDocument_ok hnew).uri_eq
  have hterm := h.hasTerm_iff hX parsed.data.docinfo.uri
  rw [← huri] at hterm
  rcases storeDocument_cases hok with ⟨hskip, did, wdb, hreplace, rfl, hskips, -, -⟩ |
      ⟨hskip, hthrow, did, wdb, hadd, rfl⟩ | ⟨hskip, hexists, rfl⟩ |
      ⟨hskip, hexists, did, wdb, hadd, rfl⟩
  · have hreplaced := hX.replaceDocument _ _ _ _ _ hreplace
    rw [← huri] at hreplaced
    rw [mapStep_handle hnew (by simp [h.skips, hskip])]
    exact ⟨hreplaced.holds h.holds hterm, hskips⟩
  · have hnone : m.documentOf doc.uri = none := by
      rw [huri]
      refine h.termExists_false hX ?_
      by_contra hexists
      have hsome := hrep doc hnew hskip (by simpa using hexists)
      rw [hthrow] at hsome
      cases hsome
    rw [mapStep_handle hnew (by simp [h.skips, hskip])]
    exact ⟨(hX.addDocument _ _ _ _ hadd).holds h.holds hnone, rfl⟩
  · have hsome := (h.termExists_iff hX).mp hexists
    have hmap : mapStep env m (.handle parsed) = m := by
      simp [mapStep, h.skips, hskip, hsome]
    rw [hmap]
    exact ⟨h.holds, rfl⟩
  · have hnone := h.termExists_false hX hexists
    rw [mapStep_handle hnew (by simp [hnone])]
    exact ⟨(hX.addDocument _ _ _ _ hadd).holds h.holds (huri ▸ hnone), rfl⟩

theorem deleteDocument_holds (hX : env.xapian.Documented) (h : Refines env st m)
    (hok : deleteDocument env.xapian st uri = .ok st') :
    Represents Document.uri (env.xapian.view st'.wdb) (mapStep env m (.delete uri)).documentOf ∧
      st'.skipDuplicates = st.skipDuplicates := by
  rcases deleteDocument_cases hok with ⟨-, wdb, hdel, rfl⟩ | ⟨hnot, rfl⟩
  · exact ⟨(hX.deleteDocument _ _ _ hdel).holds h.holds (h.hasTerm_iff hX uri), rfl⟩
  · have hnone := h.termExists_false hX hnot
    refine ⟨?_, rfl⟩
    have hsame : Function.update m.documentOf uri none = m.documentOf := by
      rw [Function.update_eq_self_iff, hnone]
    simp only [mapStep, hsame]
    exact h.holds

/-- Every call does to the database what it means for the documents. -/
theorem indexStep_refines {op : IndexOp} (hX : env.xapian.Documented) (h : Refines env st m)
    (hrep : Replaceable env st op) (hok : indexStep env st op = .ok st') :
    Refines env st' (mapStep env m op) := by
  have hmade := indexStep_each hX h.made (fun parsed doc _ hnew => ⟨parsed, hnew⟩) hok
  cases op with
  | openIndex overwrite skipDuplicates =>
      cases hok
      cases overwrite with
      | false => exact ⟨h.holds, hmade, rfl⟩
      | true => exact ⟨holds_empty _ hX.created, hmade, rfl⟩
  | handle parsed =>
      obtain ⟨doc, hnew, hstore⟩ := handler_ok hok
      obtain ⟨hholds, hskip⟩ := storeDocument_holds hX h hrep hnew hstore
      refine ⟨hholds, hmade, ?_⟩
      rw [hskip, ← h.skips]
      simp only [mapStep]
      split <;> rfl
  | delete uri =>
      obtain ⟨hholds, hskip⟩ := deleteDocument_holds hX h hok
      exact ⟨hholds, hmade, h.skips.trans hskip.symm⟩

theorem refines_init (hX : env.xapian.Documented) :
    Refines env (.init env.xapian) .init where
  holds := holds_empty _ hX.created
  made n doc hget := by cases (hX.created n).symm.trans hget
  skips := rfl

/-- The database holds what the calls mean, for as long as nothing that has to be replaced
throws. -/
theorem run_refines (hX : env.xapian.Documented) (h : Refines env st m)
    (hrep : Steps (indexStep env) (Replaceable env) st ops)
    (hrun : run (indexStep env) st ops = .ok st') :
    Refines env st' (ops.foldl (mapStep env) m) := by
  induction ops generalizing st m with
  | nil =>
      cases hrun
      exact h
  | cons op ops ih =>
      obtain ⟨st₁, hstep, hrun⟩ := run_cons_ok_iff.mp hrun
      exact ih (indexStep_refines hX h hrep.head hstep) (hrep.tail hstep) hrun

/-- Over all runs of the program, no two documents have the term of one URI, and the one that has
it is the one that the calls mean. -/
theorem run_documentOf (hX : env.xapian.Documented)
    (hrep : Steps (indexStep env) (Replaceable env) (.init env.xapian) ops)
    (hrun : run (indexStep env) (.init env.xapian) ops = .ok st) (uri : XmlStr) :
    (∀ n n' doc doc', env.xapian.document st.wdb n = some doc →
      env.xapian.document st.wdb n' = some doc' → env.xapian.hasTerm doc (uniqueId uri) →
      env.xapian.hasTerm doc' (uniqueId uri) → n = n') ∧
    ∀ doc, (∃ n, env.xapian.document st.wdb n = some doc ∧
        env.xapian.hasTerm doc (uniqueId uri)) ↔
      (ops.foldl (mapStep env) .init).documentOf uri = some doc := by
  have h := run_refines hX (refines_init hX) hrep hrun
  have hterm := h.hasTerm_iff hX uri
  constructor
  · intro n n' doc doc' hget hget' hdoc hdoc'
    exact h.holds.unique n n' doc doc' hget hget'
      (((hterm n doc hget).mp hdoc).trans ((hterm n' doc' hget').mp hdoc').symm)
  · intro doc
    rw [h.holds.map]
    constructor
    · rintro ⟨n, hget, hdoc⟩
      exact ⟨(hterm n doc hget).mp hdoc, n, hget⟩
    · rintro ⟨hkey, n, hget⟩
      exact ⟨n, hget, (hterm n doc hget).mpr hkey⟩

/-- A document that says nothing but its name. -/
def plainParsed (uri : XmlStr) : Parsed where
  data := initParserData (configSetDefault (lit "C")) .idle
    { docinfoInit with uri, size := 1, mime := lit "text/plain", parser := lit "TXT" }
  mtime := 0

/-- A library in memory, and a clock that stands still. -/
def plainIndexEnv : IndexEnv := ⟨.inMemory, fun _ => some ⟨70, 0, 1⟩⟩

/-- The library in memory does not throw. -/
theorem replaceable_inMemory (st : IndexState plainIndexEnv.xapian) (op : IndexOp) :
    Replaceable plainIndexEnv st op := by
  cases op with
  | openIndex _ _ => trivial
  | handle parsed => exact fun _ _ _ _ => rfl
  | delete _ => trivial

/-- Two runs of the program: the first adds two documents, and the second skips the one that is
there and adds a third. -/
def plainRuns : List IndexOp :=
  [.openIndex false false, .handle (plainParsed (lit "a")), .handle (plainParsed (lit "b")),
    .openIndex false true, .handle (plainParsed (lit "a")), .handle (plainParsed (lit "c"))]

theorem run_documentOf_plain : ∃ st, run (indexStep plainIndexEnv) (.init _) plainRuns = .ok st ∧
    ∀ doc, (∃ n, plainIndexEnv.xapian.document st.wdb n = some doc ∧
        plainIndexEnv.xapian.hasTerm doc (uniqueId (lit "c"))) ↔
      (plainRuns.foldl (mapStep plainIndexEnv) .init).documentOf (lit "c") = some doc := by
  obtain ⟨st, hrun⟩ := isOk_iff.mp
    (by decide +kernel : (run (indexStep plainIndexEnv) (.init _) plainRuns).isOk = true)
  exact ⟨st, hrun, (run_documentOf InMemory.documented
    (fun _ _ _ _ _ _ => replaceable_inMemory _ _) hrun (lit "c")).2⟩

/-! ## Numbers that come again -/

/-- The URI is among those that were indexed in the database. -/
def WasIndexed (X : Xapian) (db : X.Db) (uri : XmlStr) : Prop :=
  ∃ n doc, X.document db n = some doc ∧ doc.uri = uri

/-- What the program knows of the documents that were there when it opened the database `db`,
once the documents `handled` have come. -/
structure Updates (X : Xapian) (db : X.Db) (handled : List Parsed) (st : IndexState X) : Prop where
  skips : st.skipDuplicates = false
  keeps : Keeps Document.uri (X.view db) (X.view st.wdb)
  recalls : Recalls Document.uri (X.view db) (X.view st.wdb)
  length : st.updated.length = X.lastDocid db + 1
  marked : ∀ n, st.updated[n]? = some true ↔ ∃ doc, X.document db n = some doc ∧
    ∃ parsed ∈ handled, parsed.data.docinfo.uri = doc.uri
  outcomes : List.Forall₂ (fun parsed outcome =>
    outcome = Outcome.updated ↔ WasIndexed X db parsed.data.docinfo.uri) handled st.outcomes

theorem updates_open (X : Xapian) (db : X.Db) :
    Updates X db [] (openWriteableIndex X false false db) where
  skips := rfl
  keeps := .refl _ _
  recalls := .refl _ _
  length := by simp [openWriteableIndex]
  marked n := by simp [openWriteableIndex, List.getElem?_replicate]
  outcomes := .nil

variable {db : env.xapian.Db} {handled : List Parsed}

/-- A document gets a number that was given out before exactly when its URI had one. -/
theorem Updates.number_le_iff {wdb : env.xapian.Db} {did : Nat}
    (h : Updates env.xapian db handled st)
    (hkeeps : Keeps Document.uri (env.xapian.view db) (env.xapian.view wdb))
    (hrecalls : Recalls Document.uri (env.xapian.view db) (env.xapian.view wdb))
    (hholds : Represents Document.uri (env.xapian.view wdb) m.documentOf)
    (hfound : env.xapian.document wdb did = some doc)
    (hnumbered : ∀ n doc, env.xapian.document db n = some doc → n ≤ env.xapian.lastDocid db) :
    (did < st.updated.length ↔ WasIndexed env.xapian db doc.uri) ∧
      ∀ n doc₀, env.xapian.document db n = some doc₀ → doc₀.uri = doc.uri → n = did := by
  have hsame : ∀ n doc₀, env.xapian.document db n = some doc₀ → doc₀.uri = doc.uri → n = did := by
    intro n doc₀ hget huri
    obtain ⟨doc₁, hget₁, hkey⟩ := hkeeps n doc₀ hget
    exact hholds.unique n did doc₁ doc hget₁ hfound (hkey.trans huri)
  refine ⟨?_, hsame⟩
  rw [h.length, Nat.lt_succ_iff]
  constructor
  · intro hle
    obtain ⟨doc₀, hget, hkey⟩ := hrecalls.2 did doc hfound hle
    exact ⟨did, doc₀, hget, hkey⟩
  · rintro ⟨n, doc₀, hget, huri⟩
    rw [← hsame n doc₀ hget huri]
    exact hnumbered n doc₀ hget

/-- A document with another URI does not count for this one. -/
theorem exists_handled_append {uri : XmlStr} (hne : parsed.data.docinfo.uri ≠ uri) :
    (∃ p ∈ handled ++ [parsed], p.data.docinfo.uri = uri) ↔
      ∃ p ∈ handled, p.data.docinfo.uri = uri := by
  simp only [List.mem_append, List.mem_singleton]
  constructor
  · rintro ⟨p, hp | rfl, hpuri⟩
    · exact ⟨p, hp, hpuri⟩
    · exact absurd hpuri hne
  · rintro ⟨p, hp, hpuri⟩
    exact ⟨p, .inl hp, hpuri⟩

/-- The number of a document that has come is marked, if it was given out before. -/
theorem Updates.marked_set {wdb : env.xapian.Db} {did : Nat}
    (h : Updates env.xapian db handled st)
    (hrecalls : Recalls Document.uri (env.xapian.view db) (env.xapian.view wdb))
    (hfound : env.xapian.document wdb did = some doc)
    (hnumbered : ∀ n doc, env.xapian.document db n = some doc → n ≤ env.xapian.lastDocid db)
    (hsame : ∀ n doc₀, env.xapian.document db n = some doc₀ → doc₀.uri = doc.uri → n = did)
    (huri : doc.uri = parsed.data.docinfo.uri) (n : Nat) :
    (st.updated.set did true)[n]? = some true ↔ ∃ doc₀, env.xapian.document db n = some doc₀ ∧
      ∃ p ∈ handled ++ [parsed], p.data.docinfo.uri = doc₀.uri := by
  rw [List.getElem?_set]
  by_cases hn : did = n
  · subst hn
    rw [if_pos rfl]
    constructor
    · intro hset
      have hdid : did < st.updated.length := by
        by_contra hge
        rw [if_neg hge] at hset
        cases hset
      obtain ⟨doc₀, hget, hkey⟩ := hrecalls.2 did doc hfound
        (by rw [h.length] at hdid; exact Nat.le_of_lt_succ hdid)
      exact ⟨doc₀, hget, parsed, by simp, huri.symm.trans hkey.symm⟩
    · rintro ⟨doc₀, hget, -⟩
      have hdid : did < st.updated.length := by
        rw [h.length]
        exact Nat.lt_succ_of_le (hnumbered did doc₀ hget)
      rw [if_pos hdid]
  · rw [if_neg hn, h.marked]
    refine exists_congr fun doc₀ => and_congr_right fun hget => (exists_handled_append ?_).symm
    intro hsuri
    exact hn (hsame n doc₀ hget (hsuri.symm.trans huri.symm)).symm

theorem handler_refines (hX : env.xapian.Documented) (h : Refines env st m)
    (hrep : Replaceable env st (.handle parsed)) (hok : handler env st parsed = .ok st') :
    Refines env st' (mapStep env m (.handle parsed)) :=
  indexStep_refines hX h hrep hok

theorem handler_updates (hX : env.xapian.Documented) (h : Refines env st m)
    (hupdates : Updates env.xapian db handled st)
    (hnumbered : ∀ n doc, env.xapian.document db n = some doc → n ≤ env.xapian.lastDocid db)
    (hrep : Replaceable env st (.handle parsed)) (hok : handler env st parsed = .ok st') :
    Updates env.xapian db (handled ++ [parsed]) st' := by
  have hrefines' := handler_refines hX h hrep hok
  obtain ⟨doc, hnew, hstore⟩ := handler_ok hok
  have huri := (newDocument_ok hnew).uri_eq
  have hterm := h.hasTerm_iff hX parsed.data.docinfo.uri
  rw [← huri] at hterm
  have hskip := hupdates.skips
  rcases storeDocument_cases hstore with
      ⟨-, did, wdb, hreplace, rfl, hskips, hupdated, houtcomes⟩ |
      ⟨-, hthrow, did, wdb, hadd, rfl⟩ | ⟨hskip', -⟩ | ⟨hskip', -⟩
  · have hreplaced := hX.replaceDocument _ _ _ _ _ hreplace
    rw [← huri] at hreplaced
    have hkeeps := hupdates.keeps.trans (hreplaced.keeps h.holds hterm)
    have hrecalls := hupdates.recalls.trans (hreplaced.recalls hterm)
    obtain ⟨hnumber, hsame⟩ := hupdates.number_le_iff hkeeps hrecalls hrefines'.holds
      hreplaced.found_new hnumbered
    refine ⟨hskips.trans hskip, hkeeps, hrecalls, ?_, fun n => ?_, ?_⟩
    · rw [hupdated, List.length_set, hupdates.length]
    · rw [hupdated]
      exact hupdates.marked_set hrecalls hreplaced.found_new hnumbered hsame huri n
    · rw [houtcomes]
      refine List.rel_append hupdates.outcomes (.cons ?_ .nil)
      rw [← huri, ← hnumber]
      split <;> simp_all
  · have hnone : m.documentOf doc.uri = none := by
      rw [huri]
      refine h.termExists_false hX ?_
      by_contra hexists
      have hsome := hrep doc hnew hskip (by simpa using hexists)
      rw [hthrow] at hsome
      cases hsome
    have hfree : ∀ n doc₀, env.xapian.document db n = some doc₀ → doc₀.uri ≠ doc.uri := by
      intro n doc₀ hget hkey
      obtain ⟨doc₁, hget₁, hkey₁⟩ := hupdates.keeps n doc₀ hget
      exact h.holds.none_iff.mp hnone n doc₁ hget₁ (hkey₁.trans hkey)
    have hadded := hX.addDocument _ _ _ _ hadd
    refine ⟨hskip, hupdates.keeps.trans (hadded.keeps h.holds),
      hupdates.recalls.trans hadded.recalls, hupdates.length, fun n => ?_, ?_⟩
    · change st.updated[n]? = some true ↔ _
      rw [hupdates.marked]
      refine exists_congr fun doc₀ => and_congr_right fun hget => (exists_handled_append ?_).symm
      intro hsuri
      exact hfree n doc₀ hget (hsuri.symm.trans huri.symm)
    · refine List.rel_append hupdates.outcomes (.cons ?_ .nil)
      refine iff_of_false (by decide) ?_
      rintro ⟨n, doc₀, hget, hkey⟩
      exact hfree n doc₀ hget (hkey.trans huri.symm)
  · exact absurd (hskip.symm.trans hskip') (by decide)
  · exact absurd (hskip.symm.trans hskip') (by decide)

theorem run_handle_updates (hX : env.xapian.Documented) {more : List Parsed}
    (h : Refines env st m) (hupdates : Updates env.xapian db handled st)
    (hnumbered : ∀ n doc, env.xapian.document db n = some doc → n ≤ env.xapian.lastDocid db)
    (hrep : Steps (indexStep env) (Replaceable env) st (more.map .handle))
    (hrun : run (indexStep env) st (more.map .handle) = .ok st') :
    Updates env.xapian db (handled ++ more) st' := by
  induction more generalizing st m handled with
  | nil =>
      cases hrun
      rwa [List.append_nil]
  | cons parsed more ih =>
      obtain ⟨st₁, hstep, hrun⟩ := run_cons_ok_iff.mp hrun
      have hupdates₁ := handler_updates hX h hupdates hnumbered hrep.head hstep
      rw [List.append_cons]
      exact ih (handler_refines hX h hrep.head hstep) hupdates₁ (hrep.tail hstep) hrun

/-- A run of the program that updates an index, after any runs before it: `updated` marks the
documents whose files have come again, it is said of these and of no others that they have been
updated, and every document that was there keeps its number. -/
theorem run_updated (hX : env.xapian.Documented)
    (hrep₀ : Steps (indexStep env) (Replaceable env) (.init env.xapian) ops)
    (hrun₀ : run (indexStep env) (.init env.xapian) ops = .ok st)
    (hrep : Steps (indexStep env) (Replaceable env)
      (openWriteableIndex env.xapian false false st.wdb) (handled.map .handle))
    (hrun : run (indexStep env) st (.openIndex false false :: handled.map .handle) = .ok st') :
    (∀ n, st'.updated[n]? = some true ↔ ∃ doc, env.xapian.document st.wdb n = some doc ∧
      ∃ parsed ∈ handled, parsed.data.docinfo.uri = doc.uri) ∧
    List.Forall₂ (fun parsed outcome => outcome = Outcome.updated ↔
      WasIndexed env.xapian st.wdb parsed.data.docinfo.uri) handled st'.outcomes ∧
    ∀ n doc, env.xapian.document st.wdb n = some doc →
      ∃ doc', env.xapian.document st'.wdb n = some doc' ∧ doc'.uri = doc.uri := by
  have h := run_refines hX (refines_init hX) hrep₀ hrun₀
  rw [run_cons_of_ok (t := openWriteableIndex env.xapian false false st.wdb) rfl] at hrun
  have hopened : Refines env (openWriteableIndex env.xapian false false st.wdb) _ :=
    indexStep_refines hX h (show Replaceable env st (.openIndex false false) from trivial) rfl
  have hupdates := run_handle_updates hX hopened (updates_open env.xapian st.wdb)
    h.holds.numbered hrep hrun
  rw [List.nil_append] at hupdates
  exact ⟨hupdates.marked, hupdates.outcomes, hupdates.keeps⟩

theorem run_updated_plain : ∃ st st',
    run (indexStep plainIndexEnv) (.init _) plainRuns = .ok st ∧
    run (indexStep plainIndexEnv) st [.openIndex false false, .handle (plainParsed (lit "b")),
      .handle (plainParsed (lit "d"))] = .ok st' ∧
    ∀ n, st'.updated[n]? = some true ↔
      ∃ doc, plainIndexEnv.xapian.document st.wdb n = some doc ∧
        ∃ parsed ∈ [plainParsed (lit "b"), plainParsed (lit "d")],
          parsed.data.docinfo.uri = doc.uri := by
  obtain ⟨st', hrun⟩ := isOk_iff.mp (by decide +kernel :
    (run (indexStep plainIndexEnv) (.init _) (plainRuns ++ [.openIndex false false,
      .handle (plainParsed (lit "b")), .handle (plainParsed (lit "d"))])).isOk = true)
  obtain ⟨st, hrun₀, hrun⟩ := run_append_ok_iff.mp hrun
  have hlist : run (indexStep plainIndexEnv) st (.openIndex false false ::
      [plainParsed (lit "b"), plainParsed (lit "d")].map .handle) = .ok st' := hrun
  exact ⟨st, st', hrun₀, hrun, (run_updated InMemory.documented
    (fun _ _ _ _ _ _ => replaceable_inMemory _ _) hrun₀
    (fun _ _ _ _ _ _ => replaceable_inMemory _ _) hlist).1⟩

end LibSwish3
