import LibSwish3.Lib.Runs
import LibSwish3.Numerals
import LibSwish3.Parser
import LibSwish3.Xapian

/-!
# Indexing

`handler` of `swish_xapian.cpp` is called with every parsed document.  It makes a document of the
search library of it: terms for its URI, its time and its date, a text under a prefix for each
MetaName, and a value for each member of its docinfo and for each Property, in that order.  Then
it replaces what is stored for the URI, or adds the document where there is nothing; told to skip
duplicates, it only adds.

## Main definitions

* `newDocument` — the first part of `handler`.
* `storeDocument` — the second part.
* `IndexOp`, `indexStep` — what happens to an index, over any number of runs of the program.
-/

namespace LibSwish3

open Runs Tables

namespace Swish

def prefixUrl : XmlStr := lit "U"
def prefixMtime : XmlStr := lit "T"

end Swish

/-- The members of `struct tm` that are read. -/
structure Tm where
  tmYear : Int
  tmMon : Int
  tmMday : Int

/-- What indexing asks of the search library and the C library; `localtime` is NULL for a year
that does not fit. -/
structure IndexEnv where
  xapian : Xapian
  localtime : Int → Option Tm

/-- What `handler` is given: `docinfo->mtime` beside the rest. -/
structure Parsed where
  data : ParserData
  mtime : Int

/-! ## Dates -/

/-- `%0nd` of a number that is not negative. -/
def zeroPadded (n : Nat) (v : Int) : XmlStr :=
  List.replicate (n - (intToString v).length) 48 ++ intToString v

/-- The number, or the bound that it passes. -/
def between (lo hi v : Int) : Int := if v < lo then lo else if v > hi then hi else v

/-- `date_to_string`. -/
def dateToString (y m d : Int) : XmlStr :=
  zeroPadded 4 (between 0 9999 y) ++ zeroPadded 2 (between 1 12 m) ++
    zeroPadded 2 (between 1 31 d)

/-- The terms of a date: day, month and year, each made of the one before. -/
def dateTerms (tm : Tm) : List XmlStr :=
  let day := lit "D" ++ dateToString (tm.tmYear + 1900) (tm.tmMon + 1) tm.tmMday
  let month := (day.take 7).set 0 77
  let year := (month.take 5).set 0 89
  [day, month, year]

/-! ## The document -/

/-- The prefix of the terms of a MetaName. -/
def metaPrefix (id : Int) : XmlStr := intToString id ++ lit ":"

/-- `get_prefix`. -/
def getPrefix (metaname : XmlStr) (config : Config) : Swish XmlStr :=
  match config.metanames.lookup metaname with
  | none => .error (.fault .nullDeref)
  | some m => .ok (metaPrefix m.id)

/-- `get_weight`. -/
def getWeight (metaname : XmlStr) (config : Config) : Swish Nat :=
  match config.metanames.lookup metaname with
  | none => .error (.fault .nullDeref)
  | some m => .ok (if 0 < m.bias then m.bias.toNat else 1)

/-- `add_metanames`: `swishdefault` and `swishtitle` are indexed without a prefix, too. -/
def addMetanames (config : Config) (doc : Document) (metaname buffer : XmlStr) :
    Swish Document := do
  let termPrefix ← getPrefix metaname config
  let weight ← getWeight metaname config
  let doc := doc.indexText (cstr buffer) weight termPrefix
  if metaname = Swish.defaultMetaname ∨ metaname = Swish.titleMetaname then
    pure (doc.indexText (cstr buffer) weight [])
  else pure doc

/-- What is stored for a Property: a number becomes a string that sorts like it. -/
def propertyValue (X : Xapian) (prop : Property) (propBuf : XmlStr) : Swish XmlStr :=
  if prop.type = Swish.propInt ∧ propBuf ≠ [] then
    X.sortableSerialise <$> stringToInt propBuf
  else .ok propBuf

/-- `add_properties`, `SWISH_SPLIT_PROPERTIES` being 0. -/
def addProperties (X : Xapian) (config : Config) (doc : Document) (name buffer : XmlStr) :
    Swish Document :=
  match config.properties.lookup name with
  | none => .error (.fault .nullDeref)
  | some prop => do pure (doc.addValue prop.id (← propertyValue X prop (cstr buffer)))

/-- The term that names a document. -/
def uniqueId (uri : XmlStr) : XmlStr := Swish.prefixUrl ++ uri

/-- The title; `string` is given NULL where there is no buffer for it. -/
def titleOf (pd : ParserData) : Swish XmlStr :=
  match pd.properties.lookup Swish.propTitle with
  | none => .error (.fault .nullDeref)
  | some title => .ok (cstr title)

/-- The text that the document carries. -/
def recordOf (docinfo : DocInfo) (mtime : Int) (title : XmlStr) : XmlStr :=
  lit "url=" ++ docinfo.uri ++ lit "\ntitle=" ++ title ++ lit "\ntype=" ++ docinfo.mime ++
    lit "\nmodtime=" ++ intToString mtime ++ lit "\nsize=" ++ intToString docinfo.size

/-- The values that come from the docinfo, and the title. -/
def docinfoValues (docinfo : DocInfo) (mtime : Int) (title : XmlStr) : List (Int × XmlStr) :=
  [(Swish.propMtimeId, intToString mtime), (Swish.propDocpathId, docinfo.uri),
    (Swish.propSizeId, intToString docinfo.size), (Swish.propMimeId, docinfo.mime),
    (Swish.propParserId, docinfo.parser), (Swish.propNwordsId, intToString docinfo.nwords),
    (Swish.propTitleId, title)]

/-- The scans over the buffers of the MetaNames and of the Properties. -/
def addBuffers (X : Xapian) (pd : ParserData) (doc : Document) : Swish Document := do
  let doc ← run (fun doc e => addMetanames pd.config doc e.1 e.2) doc pd.metanames.entries
  run (fun doc e => addProperties X pd.config doc e.1 e.2) doc pd.properties.entries

/-- `handler` up to the storing. -/
def newDocument (env : IndexEnv) (parsed : Parsed) : Swish Document := do
  let docinfo := parsed.data.docinfo
  let title ← titleOf parsed.data
  match env.localtime parsed.mtime with
  | none => .error (.fault .nullDeref)
  | some tm =>
    let doc := { Document.empty with
      data := recordOf docinfo parsed.mtime title
      terms := [Swish.prefixMtime ++ intToString parsed.mtime, uniqueId docinfo.uri] ++
        dateTerms tm }
    let doc := (docinfoValues docinfo parsed.mtime title).foldl
      (fun doc value => doc.addValue value.1 value.2) doc
    addBuffers env.xapian parsed.data doc

/-! ## The index -/

/-- What `handler` and `delete_document` say about a document. -/
inductive Outcome
  | updated | added | addedAgain | skipped | deleted | notThere
  deriving DecidableEq, Repr

/-- How the program can stop: in the library, or by an exception that nothing catches. -/
inductive Stop
  | library (why : Halt)
  | uncaught
  deriving DecidableEq, Repr

/-- The database, and the globals of `swish_xapian.cpp`; `outcomes` is what has been said. -/
structure IndexState (X : Xapian) where
  wdb : X.Db
  skipDuplicates : Bool
  updated : List Bool
  outcomes : List Outcome

/-- What is said goes behind what has been said. -/
def IndexState.say {X : Xapian} (st : IndexState X) (wdb : X.Db) (outcome : Outcome) :
    IndexState X := { st with wdb, outcomes := st.outcomes ++ [outcome] }

/-- `handler` from the storing on. -/
def storeDocument (X : Xapian) (st : IndexState X) (uniqueId : XmlStr) (doc : Document) :
    Except Stop (IndexState X) :=
  if !st.skipDuplicates then
    match X.replaceDocument st.wdb uniqueId doc with
    | some (did, wdb) =>
      if did < st.updated.length then
        .ok { st.say wdb .updated with updated := st.updated.set did true }
      else .ok (st.say wdb .added)
    | none =>
      match X.addDocument st.wdb doc with
      | some (_, wdb) => .ok (st.say wdb .addedAgain)
      | none => .error .uncaught
  else if X.termExists st.wdb uniqueId then .ok (st.say st.wdb .skipped)
  else
    match X.addDocument st.wdb doc with
    | some (_, wdb) => .ok (st.say wdb .added)
    | none => .error .uncaught

/-- `handler`. -/
def handler (env : IndexEnv) (st : IndexState env.xapian) (parsed : Parsed) :
    Except Stop (IndexState env.xapian) := do
  let doc ← (newDocument env parsed).mapError .library
  storeDocument env.xapian st (uniqueId parsed.data.docinfo.uri) doc

/-- `delete_document`. -/
def deleteDocument (X : Xapian) (st : IndexState X) (uri : XmlStr) : Except Stop (IndexState X) :=
  if X.termExists st.wdb (uniqueId uri) then
    match X.deleteDocument st.wdb (uniqueId uri) with
    | some wdb => .ok (st.say wdb .deleted)
    | none => .error .uncaught
  else .ok (st.say st.wdb .notThere)

/-- `open_writeable_index`, as far as the database is concerned, at the start of the program. -/
def openWriteableIndex (X : Xapian) (overwrite skipDuplicates : Bool) (wdb : X.Db) :
    IndexState X :=
  if !overwrite then
    ⟨wdb, skipDuplicates,
      if !skipDuplicates then List.replicate (X.lastDocid wdb + 1) false else [], []⟩
  else ⟨X.created, skipDuplicates, [], []⟩

/-- What happens to an index.  Every run of the program opens it. -/
inductive IndexOp
  | openIndex (overwrite skipDuplicates : Bool)
  | handle (parsed : Parsed)
  | delete (uri : XmlStr)

def indexStep (env : IndexEnv) (st : IndexState env.xapian) :
    IndexOp → Except Stop (IndexState env.xapian)
  | .openIndex overwrite skipDuplicates =>
    .ok (openWriteableIndex env.xapian overwrite skipDuplicates st.wdb)
  | .handle parsed => handler env st parsed
  | .delete uri => deleteDocument env.xapian st uri

/-- There is no index yet: the first run of the program creates one. -/
def IndexState.init (X : Xapian) : IndexState X := openWriteableIndex X true false X.created

end LibSwish3
