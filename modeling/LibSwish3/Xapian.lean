import LibSwish3.Lib.Records
import LibSwish3.Lib.Segments
import LibSwish3.Config

/-!
# The search library

`swish_xapian.cpp` stores documents in a database of Xapian.  The library is a parameter:
`Xapian` has the calls the program makes, and `Xapian.Documented` is what their documentation
says.  A document is what has been put into it, and a call that throws is none.

## Main definitions

* `Document`, `Xapian`, `Xapian.hasTerm`.
* `Xapian.Documented` — what the program relies on.
* `Xapian.inMemory` — a library that keeps its documents in a list.
-/

namespace LibSwish3

open Records Segments Tables

/-- What `index_text` is given. -/
structure IndexedText where
  text : XmlStr
  weight : Nat
  termPrefix : XmlStr
  deriving DecidableEq, Repr

/-- `Xapian::Document`: `terms` are those of `add_term`, and `texts` what the term generator was
given for it. -/
structure Document where
  data : XmlStr
  terms : List XmlStr
  texts : List IndexedText
  values : Table Int XmlStr

namespace Document

/-- A new document. -/
def empty : Document := ⟨[], [], [], ∅⟩

def addTerm (doc : Document) (term : XmlStr) : Document := { doc with terms := doc.terms ++ [term] }

def addValue (doc : Document) (slot : Int) (value : XmlStr) : Document :=
  { doc with values := doc.values.insert slot value }

def indexText (doc : Document) (text : XmlStr) (weight : Nat) (termPrefix : XmlStr) : Document :=
  { doc with texts := doc.texts ++ [⟨text, weight, termPrefix⟩] }

/-- `get_value`: empty where no value has been added. -/
def getValue (doc : Document) (slot : Int) : XmlStr := (doc.values.lookup slot).getD []

variable {doc : Document} {term text termPrefix value : XmlStr} {slot : Int} {weight : Nat}

@[simp] theorem terms_addTerm : (doc.addTerm term).terms = doc.terms ++ [term] := rfl
@[simp] theorem texts_addTerm : (doc.addTerm term).texts = doc.texts := rfl
@[simp] theorem values_addTerm : (doc.addTerm term).values = doc.values := rfl
@[simp] theorem terms_addValue : (doc.addValue slot value).terms = doc.terms := rfl
@[simp] theorem texts_addValue : (doc.addValue slot value).texts = doc.texts := rfl
@[simp] theorem terms_indexText : (doc.indexText text weight termPrefix).terms = doc.terms := rfl
@[simp] theorem texts_indexText :
    (doc.indexText text weight termPrefix).texts = doc.texts ++ [⟨text, weight, termPrefix⟩] := rfl
@[simp] theorem values_indexText :
    (doc.indexText text weight termPrefix).values = doc.values := rfl

theorem getValue_addValue (slot' : Int) :
    (doc.addValue slot value).getValue slot' =
      if slot' = slot then value else doc.getValue slot' := by
  rw [getValue, addValue]
  by_cases hslot : slot' = slot
  · subst hslot
    simp
  · simp [AList.lookup_insert_ne hslot, hslot, getValue]

end Document

/-- The calls of the library.  `words` and `stems` are what the term generator finds in a text,
and `indexText` the terms that it makes of them under a prefix. -/
structure Xapian where
  Db : Type
  words : (text : XmlStr) → List XmlStr
  stems : (text : XmlStr) → List XmlStr
  indexText : (text termPrefix : XmlStr) → List XmlStr
  sortableSerialise : Int → XmlStr
  /-- The database that `DB_CREATE_OR_OVERWRITE` opens. -/
  created : Db
  document : Db → Nat → Option Document
  lastDocid : Db → Nat
  termExists : Db → XmlStr → Bool
  addDocument : Db → Document → Option (Nat × Db)
  replaceDocument : Db → (uniqueTerm : XmlStr) → Document → Option (Nat × Db)
  deleteDocument : Db → (uniqueTerm : XmlStr) → Option Db

namespace Xapian

/-- The documents of a database by their numbers. -/
def view (X : Xapian) (db : X.Db) : Store Document := ⟨X.document db, X.lastDocid db⟩

/-- The document is indexed by the term. -/
def hasTerm (X : Xapian) (doc : Document) (term : XmlStr) : Prop :=
  term ∈ doc.terms ∨ ∃ it ∈ doc.texts, term ∈ X.indexText it.text it.termPrefix

instance (X : Xapian) (doc : Document) (term : XmlStr) : Decidable (X.hasTerm doc term) :=
  inferInstanceAs (Decidable (_ ∨ _))

/-- What the library documents.  A word is in lower case and has no colon, and a term made of a
stem begins with `Z`, which stands in front of the prefix. -/
structure Documented (X : Xapian) : Prop where
  indexText : ∀ text termPrefix term, term ∈ X.indexText text termPrefix ↔
    (∃ word ∈ X.words text, term = termPrefix ++ word) ∨
      ∃ stem ∈ X.stems text, term = 90 :: (termPrefix ++ stem)
  words_lower : ∀ text, ∀ word ∈ X.words text, ∃ c rest, word = c :: rest ∧ ¬(65 ≤ c ∧ c ≤ 90)
  words_colon : ∀ text, ∀ word ∈ X.words text, 58 ∉ word
  created : ∀ n, X.document X.created n = none
  termExists : ∀ db term, X.termExists db term = true ↔
    ∃ n doc, X.document db n = some doc ∧ X.hasTerm doc term
  addDocument : ∀ db doc n db', X.addDocument db doc = some (n, db') →
    Inserted (X.view db) doc n (X.view db')
  replaceDocument : ∀ db term doc n db', X.replaceDocument db term doc = some (n, db') →
    Replaced (X.hasTerm · term) (X.view db) doc n (X.view db')
  deleteDocument : ∀ db term db', X.deleteDocument db term = some db' →
    Deleted (X.hasTerm · term) (X.view db) (X.view db')

@[simp] theorem get_view (X : Xapian) (db : X.Db) : (X.view db).get = X.document db := rfl
@[simp] theorem last_view (X : Xapian) (db : X.Db) : (X.view db).last = X.lastDocid db := rfl

end Xapian

/-! ## A library in memory -/

namespace InMemory

/-- The words of a text: the runs of its letters and digits, in lower case. -/
def words (text : XmlStr) : List XmlStr :=
  ((text.map tolower).splitOnP fun c => !(isdigit c || (97 ≤ c && c ≤ 122))).filter (!·.isEmpty)

/-- The terms of a text. -/
def indexText (text termPrefix : XmlStr) : List XmlStr := (words text).map (termPrefix ++ ·)

def hasTerm (doc : Document) (term : XmlStr) : Bool :=
  doc.terms.contains term ||
    doc.texts.any fun it => (indexText it.text it.termPrefix).contains term

/-- Documents by number. -/
structure Db where
  document : Nat → Option Document
  lastDocid : Nat
  numbered : ∀ n doc, document n = some doc → n ≤ lastDocid

def created : Db := ⟨fun _ => none, 0, by simp⟩

/-- The numbers of the documents with the term. -/
def postings (db : Db) (term : XmlStr) : List Nat :=
  (List.range (db.lastDocid + 1)).filter fun n => (db.document n).any (hasTerm · term)

def addDocument (db : Db) (doc : Document) : Nat × Db where
  fst := db.lastDocid + 1
  snd.document n := if n = db.lastDocid + 1 then some doc else db.document n
  snd.lastDocid := db.lastDocid + 1
  snd.numbered n doc' h := by
    split at h
    · omega
    · exact Nat.le_succ_of_le (db.numbered n doc' h)

def deleteDocument (db : Db) (term : XmlStr) : Db where
  document n := (db.document n).filter fun doc => !hasTerm doc term
  lastDocid := db.lastDocid
  numbered n doc h := db.numbered n doc (Option.filter_eq_some_iff.mp h).1

/-- A document put in the place of another. -/
def setDocument (db : Db) (n : Nat) (hn : n ≤ db.lastDocid) (doc : Document) : Db where
  document i := if i = n then some doc else db.document i
  lastDocid := db.lastDocid
  numbered i doc' h := by
    split at h
    · omega
    · exact db.numbered i doc' h

def replaceDocument (db : Db) (term : XmlStr) (doc : Document) : Nat × Db :=
  match (postings db term).head? with
  | some n =>
    if hn : n ≤ db.lastDocid then (n, setDocument (deleteDocument db term) n hn doc)
    else addDocument db doc
  | none => addDocument db doc

variable {db : Db} {doc : Document} {term : XmlStr} {n : Nat}

theorem mem_postings :
    n ∈ postings db term ↔ ∃ doc, db.document n = some doc ∧ hasTerm doc term = true := by
  rw [postings, List.mem_filter, List.mem_range, Option.any_eq_true_iff_get]
  constructor
  · rintro ⟨-, hsome, hterm⟩
    exact ⟨_, (Option.some_get hsome).symm, hterm⟩
  · rintro ⟨doc, hget, hterm⟩
    refine ⟨Nat.lt_succ_of_le (db.numbered n doc hget), by simp [hget], by simpa [hget] using hterm⟩

/-- The first of the postings is the smallest. -/
theorem head?_postings (h : (postings db term).head? = some n) :
    n ∈ postings db term ∧ ∀ i ∈ postings db term, n ≤ i := by
  have hsorted : (postings db term).Pairwise (· < ·) := List.pairwise_lt_range.filter _
  cases hp : postings db term with
  | nil => rw [hp] at h; cases h
  | cons n' rest =>
      rw [hp] at h hsorted
      cases h
      refine ⟨List.mem_cons_self, ?_⟩
      intro i hi
      rcases List.mem_cons.mp hi with rfl | hi
      · exact Nat.le_refl _
      · exact Nat.le_of_lt (List.rel_of_pairwise_cons hsorted hi)

end InMemory

/-- A library in memory; it does not stem, and does not throw. -/
def Xapian.inMemory : Xapian where
  Db := InMemory.Db
  words := InMemory.words
  stems _ := []
  indexText := InMemory.indexText
  sortableSerialise v := (List.range 5).reverse.map fun i => ((v + 2 ^ 31).toNat / 256 ^ i).toUInt8
  created := InMemory.created
  document := InMemory.Db.document
  lastDocid := InMemory.Db.lastDocid
  termExists db term := !(InMemory.postings db term).isEmpty
  addDocument db doc := some (InMemory.addDocument db doc)
  replaceDocument db term doc := some (InMemory.replaceDocument db term doc)
  deleteDocument db term := some (InMemory.deleteDocument db term)

namespace InMemory

theorem hasTerm_iff {doc : Document} {term : XmlStr} :
    hasTerm doc term = true ↔ Xapian.inMemory.hasTerm doc term := by
  simp [hasTerm, Xapian.hasTerm, Xapian.inMemory]

/-- The words of a text are runs of digits and small letters. -/
theorem words_plain {text word : XmlStr} (h : word ∈ words text) :
    word ≠ [] ∧ ∀ c ∈ word, 48 ≤ c ∧ c ≤ 57 ∨ 97 ≤ c ∧ c ≤ 122 := by
  rw [words, List.mem_filter] at h
  obtain ⟨hsplit, hne⟩ := h
  refine ⟨by simpa using hne, fun c hc => ?_⟩
  rw [← map_fst_segments, List.mem_map] at hsplit
  obtain ⟨⟨run, atEnd⟩, hmem, rfl⟩ := hsplit
  obtain ⟨pre, post, -, hmax, -⟩ := mem_segments_iff.mp hmem
  have hfree := hmax.free c hc
  simpa only [isdigit, Bool.not_eq_false', Bool.or_eq_true, Bool.and_eq_true,
    decide_eq_true_eq] using hfree

theorem added {db : Db} {doc : Document} :
    Inserted (Xapian.inMemory.view db) doc (addDocument db doc).1
      (Xapian.inMemory.view (addDocument db doc).2) where
  number := rfl
  last := rfl
  found := if_pos rfl
  other _ hi := if_neg hi

theorem deleted {db : Db} {term : XmlStr} :
    Deleted (Xapian.inMemory.hasTerm · term) (Xapian.inMemory.view db)
      (Xapian.inMemory.view (deleteDocument db term)) where
  last := rfl
  get i doc := by
    change (deleteDocument db term).document i = some doc ↔ _
    rw [deleteDocument, Option.filter_eq_some_iff, ← hasTerm_iff]
    simp [Xapian.inMemory]

theorem replaced {db : Db} {term : XmlStr} {doc : Document} :
    Replaced (Xapian.inMemory.hasTerm · term) (Xapian.inMemory.view db) doc
      (replaceDocument db term doc).1 (Xapian.inMemory.view (replaceDocument db term doc).2) := by
  cases hhead : (postings db term).head? with
  | none =>
      rw [replaceDocument, hhead]
      refine .fresh (fun i x hget hterm => ?_) added
      have hmem : i ∈ postings db term := mem_postings.mpr ⟨x, hget, hasTerm_iff.mpr hterm⟩
      rw [List.head?_eq_none_iff.mp hhead] at hmem
      cases hmem
  | some n =>
      obtain ⟨hmem, hleast⟩ := head?_postings hhead
      obtain ⟨x, hx, hterm⟩ := mem_postings.mp hmem
      have hn := db.numbered n x hx
      rw [replaceDocument, hhead]
      simp only [dif_pos hn]
      refine .found hx (hasTerm_iff.mp hterm) ?_ rfl (if_pos rfl) ?_
      · intro i y hget hy
        exact hleast i (mem_postings.mpr ⟨y, hget, hasTerm_iff.mpr hy⟩)
      · intro i hi y
        rw [← deleted.get]
        exact Eq.congr_left (if_neg hi)

/-- The library in memory does what the documentation says. -/
theorem documented : Xapian.inMemory.Documented where
  indexText text termPrefix term := by
    simp [Xapian.inMemory, indexText, eq_comm]
  words_lower text word h := by
    obtain ⟨hne, hplain⟩ := words_plain h
    cases word with
    | nil => exact absurd rfl hne
    | cons c rest => exact ⟨c, rest, rfl, by grind [hplain c List.mem_cons_self]⟩
  words_colon text word h hcolon := by
    have hplain := (words_plain h).2 58 hcolon
    exact absurd hplain (by decide)
  created _ := rfl
  termExists db term := by
    simp only [← hasTerm_iff]
    change (!(postings db term).isEmpty) = true ↔ _
    rw [Bool.not_eq_true', List.isEmpty_eq_false_iff_exists_mem]
    exact exists_congr fun n => mem_postings
  addDocument db doc n db' h := by
    cases h
    exact added
  replaceDocument db term doc n db' h := by
    have hpair : replaceDocument db term doc = (n, db') := Option.some.inj h
    have hreplaced : Replaced (Xapian.inMemory.hasTerm · term) (Xapian.inMemory.view db) doc
        (replaceDocument db term doc).1 (Xapian.inMemory.view (replaceDocument db term doc).2) :=
      replaced
    rwa [hpair] at hreplaced
  deleteDocument db term db' h := by
    cases h
    exact deleted

end InMemory

end LibSwish3
