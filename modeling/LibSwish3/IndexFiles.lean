import LibSwish3.BroughtUp
import LibSwish3.IncludeCalls
import LibSwish3.IndexRuns

/-!
# Files in an index

The program parses file after file with one config, and the handler stores each document under
the ids that the config has by then.  A search comes later, with names and ids of its own.  As the
config of a run only grows, and new names get free ids, the ids of a document are still those of
its names when the run ends.  So a word that is looked for under a name is found in the documents
that have it in the buffer where the parser stores the text of that name, and in no others; and
the slot of a Property holds the value of its own buffer.

## Main definitions

* `parsedFile`, `indexFile` — `swish_parse_file`.
* `addPrefix` — the prefix of a name in a query.
* `KeepsIds`, `Searchable` — the ids of the documents are those of the config.
* `run_search`, `run_values`.
-/

namespace LibSwish3

open Records Runs Tables

/-- What a run of the program asks of its surroundings. -/
structure ProgramEnv where
  sax : SaxEnv
  index : IndexEnv
  analyzer : Analyzer
  fileMtime : XmlStr → Int
  /-- How deep documents may include each other. -/
  depth : Nat

/-- The index, and `s3->config`. -/
structure ProgramState (X : Xapian) where
  index : IndexState X
  config : Config

/-- `swish_parse_file` up to the handler; none where there is no such file. -/
def parsedFile (env : ProgramEnv) (config : Config) (filename : XmlStr) :
    Swish (Option Parsed) := do
  match ← docinfoFromFilesystem env.sax config filename with
  | none => pure none
  | some docinfo => do
    let pd ← docparser env.sax (saxStep env.sax env.depth)
      (initParserData config env.analyzer docinfo) filename
    pure (some ⟨pd, env.fileMtime filename⟩)

/-- `swish_parse_file`. -/
def indexFile (env : ProgramEnv) (st : ProgramState env.index.xapian) (filename : XmlStr) :
    Except Stop (ProgramState env.index.xapian) := do
  match ← (parsedFile env st.config filename).mapError .library with
  | none => pure st
  | some parsed => do
    let index ← handler env.index st.index parsed
    pure ⟨index, parsed.data.config⟩

/-- `add_prefix`: the prefix of a MetaName in a query. -/
def addPrefix (config : Config) (m : MetaName) : Swish XmlStr := do
  match ← m.aliasFor.read with
  | none => pure (metaPrefix m.id)
  | some target =>
    match config.metanames.lookup target with
    | none => .error (.fault .nullDeref)
    | some metaToUse => pure (metaPrefix metaToUse.id)

/-! ## A file -/

section File

variable {env : ProgramEnv} {config : Config} {filename : XmlStr} {parsed : Parsed}
  {st st' : ProgramState env.index.xapian}

theorem parsedFile_ok (h : parsedFile env config filename = .ok (some parsed)) :
    ∃ docinfo, docinfoFromFilesystem env.sax config filename = .ok (some docinfo) ∧
      docparser env.sax (saxStep env.sax env.depth)
        (initParserData config env.analyzer docinfo) filename = .ok parsed.data ∧
      parsed.mtime = env.fileMtime filename := by
  obtain ⟨found, hfound, h⟩ := bind_ok_iff.mp h
  cases found with
  | none => cases h
  | some docinfo =>
      obtain ⟨pd, hparse, h⟩ := bind_ok_iff.mp h
      cases h
      exact ⟨docinfo, hfound, hparse, rfl⟩

/-- The document of a file has its name for its URI, and the config has only grown. -/
theorem parsedFile_grown {I : Config → Prop} (H : ConfigInvariant I) (hI : I config)
    (h : parsedFile env config filename = .ok (some parsed)) :
    I parsed.data.config ∧ parsed.data.docinfo.uri = filename := by
  obtain ⟨docinfo, hfound, hparse, -⟩ := parsedFile_ok h
  obtain ⟨mime, parser, ext, isGzipped, rfl⟩ := docinfoFromFilesystem_ok hfound
  exact H.docparser hI hparse

/-- What a file does to the index: nothing, or its document is handled. -/
theorem indexFile_cases (h : indexFile env st filename = .ok st') :
    (parsedFile env st.config filename = .ok none ∧ st' = st) ∨
      ∃ parsed, parsedFile env st.config filename = .ok (some parsed) ∧
        indexStep env.index st.index (.handle parsed) = .ok st'.index ∧
        st'.config = parsed.data.config := by
  obtain ⟨found, hfound, h⟩ := bind_ok_iff.mp h
  rw [mapError_ok_iff] at hfound
  cases found with
  | none =>
      cases h
      exact .inl ⟨hfound, rfl⟩
  | some parsed =>
      obtain ⟨index, hindex, h⟩ := bind_ok_iff.mp h
      cases h
      exact .inr ⟨parsed, hfound, hindex, rfl⟩

end File

/-! ## Ids that stay -/

/-- What is known of a Property under its name, and what is known later. -/
structure Property.KeepsId (p p' : Property) : Prop where
  id : p'.id = p.id
  alias_iff : p'.aliasFor = .null ↔ p.aliasFor = .null
  type : p.aliasFor = .null → p'.type = p.type

/-- The names of the first config are names of the second, with the same ids. -/
structure KeepsIds (c c' : Config) : Prop where
  metanames : ∀ k m, c.metanames.lookup k = some m →
    ∃ m', c'.metanames.lookup k = some m' ∧ m'.id = m.id
  properties : ∀ k p, c.properties.lookup k = some p →
    ∃ p', c'.properties.lookup k = some p' ∧ p.KeepsId p'

section KeepsIds

variable {c c' c'' : Config}

theorem KeepsIds.trans (h : KeepsIds c c') (h' : KeepsIds c' c'') : KeepsIds c c'' where
  metanames k m hk := by
    obtain ⟨m', hk', hid⟩ := h.metanames k m hk
    obtain ⟨m'', hk'', hid'⟩ := h'.metanames k m' hk'
    exact ⟨m'', hk'', hid'.trans hid⟩
  properties k p hk := by
    obtain ⟨p', hk', hp⟩ := h.properties k p hk
    obtain ⟨p'', hk'', hp'⟩ := h'.properties k p' hk'
    exact ⟨p'', hk'', hp'.id.trans hp.id, hp'.alias_iff.trans hp.alias_iff,
      fun hnull => (hp'.type (hp.alias_iff.mpr hnull)).trans (hp.type hnull)⟩

theorem Extends.keepsIds (h : Extends c c') : KeepsIds c c' where
  metanames k m hk := ⟨m, h.metanames.retained k m hk, rfl⟩
  properties k p hk := ⟨p, h.properties.retained k p hk, rfl, .rfl, fun _ => rfl⟩

theorem KeepsIds.uniqueIds (h : KeepsIds c c') (hids : UniqueIds c') : UniqueIds c where
  metanames k k' m m' hk hk' heq := by
    obtain ⟨n, hn, hid⟩ := h.metanames k m hk
    obtain ⟨n', hn', hid'⟩ := h.metanames k' m' hk'
    exact hids.metanames k k' n n' hn hn' (hid.trans (heq.trans hid'.symm))
  properties k k' p p' hk hk' heq := by
    obtain ⟨q, hq, hkept⟩ := h.properties k p hk
    obtain ⟨q', hq', hkept'⟩ := h.properties k' p' hk'
    exact hids.properties k k' q q' hq hq' (hkept.id.trans (heq.trans hkept'.id.symm))

end KeepsIds

/-! ## Every file a document -/

/-- The database has one document for each of these URIs, and no other. -/
def HasUris (env : IndexEnv) (st : IndexState env.xapian) (uris : XmlStr → Prop) : Prop :=
  ∃ m, Refines env st m ∧ ∀ uri, (m.documentOf uri).isSome = true ↔ uris uri

section HasUris

variable {env : ProgramEnv} {st st' : ProgramState env.index.xapian} {filename : XmlStr}
  {uris uris' : XmlStr → Prop} {files : List XmlStr} {config : Config}

theorem HasUris.congr {env : IndexEnv} {st : IndexState env.xapian} (h : HasUris env st uris)
    (hsame : ∀ uri, uris uri ↔ uris' uri) : HasUris env st uris' := by
  obtain ⟨m, hrefines, huris⟩ := h
  exact ⟨m, hrefines, fun uri => (huris uri).trans (hsame uri)⟩

theorem HasUris.termExists_iff {env : IndexEnv} {st : IndexState env.xapian}
    (hX : env.xapian.Documented) (h : HasUris env st uris) (uri : XmlStr) :
    env.xapian.termExists st.wdb (uniqueId uri) = true ↔ uris uri := by
  obtain ⟨m, hrefines, huris⟩ := h
  rw [hrefines.termExists_iff hX, huris]

theorem hasUris_created (X : IndexEnv) (hX : X.xapian.Documented) (skipDuplicates : Bool) :
    HasUris X (openWriteableIndex X.xapian true skipDuplicates X.xapian.created)
      (fun _ => False) := by
  refine ⟨⟨fun _ => none, skipDuplicates⟩, ⟨holds_empty _ hX.created, ?_, rfl⟩, by simp⟩
  intro n doc hget
  cases (hX.created n).symm.trans hget

/-- What is in the database, and that it is there once. -/
theorem HasUris.documents {env : IndexEnv} {st : IndexState env.xapian} (h : HasUris env st uris) :
    (∀ uri, uris uri ↔ ∃ n doc, env.xapian.document st.wdb n = some doc ∧ doc.uri = uri) ∧
    ∀ n n' doc doc', env.xapian.document st.wdb n = some doc →
      env.xapian.document st.wdb n' = some doc' → doc.uri = doc'.uri → n = n' := by
  obtain ⟨m, hrefines, huris⟩ := h
  refine ⟨?_, hrefines.holds.unique⟩
  intro uri
  rw [← huris, Option.isSome_iff_exists]
  constructor
  · rintro ⟨doc, hdoc⟩
    obtain ⟨huri, n, hget⟩ := (hrefines.holds.map uri doc).mp hdoc
    exact ⟨n, doc, hget, huri⟩
  · rintro ⟨n, doc, hget, huri⟩
    exact ⟨doc, (hrefines.holds.map uri doc).mpr ⟨huri, n, hget⟩⟩

theorem fileExists_of_docinfo {env : SaxEnv} {found : Option DocInfo}
    (h : docinfoFromFilesystem env config filename = .ok found) :
    found.isSome = env.fileExists filename := by
  obtain ⟨ext, -, h⟩ := bind_ok_iff.mp h
  cases hexists : env.fileExists filename with
  | false =>
      simp only [hexists] at h
      split at h <;>
        (obtain ⟨ext', -, h⟩ := bind_ok_iff.mp h
         cases h
         rfl)
  | true =>
      simp only [hexists, if_true] at h
      split at h <;>
        (obtain ⟨ext', -, h⟩ := bind_ok_iff.mp h
         obtain ⟨parser, -, h⟩ := bind_ok_iff.mp h
         cases h
         rfl)

/-- The files that exist are parsed. -/
theorem fileExists_of_parsedFile {found : Option Parsed}
    (h : parsedFile env config filename = .ok found) :
    found.isSome = env.sax.fileExists filename := by
  obtain ⟨docinfo, hdocinfo, h⟩ := bind_ok_iff.mp h
  rw [← fileExists_of_docinfo hdocinfo]
  cases docinfo with
  | none => cases h; rfl
  | some docinfo =>
      obtain ⟨pd, -, h⟩ := bind_ok_iff.mp h
      cases h
      rfl

/-- Nothing has been said of a document that was added because replacing it had thrown. -/
def AllReplaced {X : Xapian} (st : IndexState X) : Prop := Outcome.addedAgain ∉ st.outcomes

/-- What has been said stays said. -/
theorem AllReplaced.of_handler {env : IndexEnv} {st st' : IndexState env.xapian} {parsed : Parsed}
    (h : AllReplaced st') (hok : LibSwish3.handler env st parsed = .ok st') : AllReplaced st := by
  obtain ⟨doc, -, hstore⟩ := handler_ok hok
  have hsaid : ∃ outcome, st'.outcomes = st.outcomes ++ [outcome] := by
    obtain ⟨-, did, wdb, -, -, -, -, hsaid⟩ | ⟨-, -, did, wdb, -, rfl⟩ | ⟨-, -, rfl⟩ |
      ⟨-, -, did, wdb, -, rfl⟩ := storeDocument_cases hstore
    · exact ⟨_, hsaid⟩
    all_goals exact ⟨_, rfl⟩
  obtain ⟨outcome, hsaid⟩ := hsaid
  intro hmem
  exact h (hsaid ▸ List.mem_append_left _ hmem)

/-- Had replacing thrown, the program would have said so. -/
theorem AllReplaced.replaceable {env : IndexEnv} {st st' : IndexState env.xapian}
    {parsed : Parsed} (h : AllReplaced st')
    (hok : LibSwish3.handler env st parsed = .ok st') : Replaceable env st (.handle parsed) := by
  intro doc hdoc hskip _
  obtain ⟨doc', hdoc', hstore⟩ := handler_ok hok
  cases hdoc.symm.trans hdoc'
  obtain ⟨-, did, wdb, hreplace, -⟩ | ⟨-, -, did, wdb, -, rfl⟩ | ⟨hskip', -⟩ | ⟨hskip', -⟩ :=
    storeDocument_cases hstore
  · rw [hreplace]
    rfl
  · exact absurd (List.mem_append_right _ List.mem_cons_self) h
  all_goals exact absurd (hskip'.symm.trans hskip) (by simp)

/-- As long as no replacing has thrown, the database has one document for each of these URIs. -/
def HasUrisIfReplaced (env : IndexEnv) (st : IndexState env.xapian) (uris : XmlStr → Prop) :
    Prop :=
  AllReplaced st → HasUris env st uris

theorem HasUrisIfReplaced.congr {env : IndexEnv} {st : IndexState env.xapian}
    (h : HasUrisIfReplaced env st uris) (hsame : ∀ uri, uris uri ↔ uris' uri) :
    HasUrisIfReplaced env st uris' :=
  fun hall => (h hall).congr hsame

/-- A document that is handled is there afterwards. -/
theorem HasUris.handler {env : IndexEnv} {st st' : IndexState env.xapian} {parsed : Parsed}
    (hX : env.xapian.Documented) (h : HasUris env st uris)
    (hagain : uris parsed.data.docinfo.uri → AllReplaced st')
    (hok : LibSwish3.handler env st parsed = .ok st') :
    HasUris env st' (fun uri => uris uri ∨ uri = parsed.data.docinfo.uri) := by
  obtain ⟨m, hrefines, huris⟩ := h
  have hstep : indexStep env st (.handle parsed) = .ok st' := hok
  have hrep : Replaceable env st (.handle parsed) := by
    intro doc hdoc hskip hterm
    have hdone := (huris _).mp ((hrefines.termExists_iff hX).mp hterm)
    exact (hagain hdone).replaceable hok doc hdoc hskip hterm
  refine ⟨_, indexStep_refines hX hrefines hrep hstep, ?_⟩
  intro uri
  simp only [← huris]
  obtain ⟨doc, hdoc, -⟩ := handler_ok hok
  by_cases hskip : m.skipDuplicates ∧ (m.documentOf parsed.data.docinfo.uri).isSome
  · simp only [mapStep, if_pos hskip, iff_self_or]
    rintro rfl
    exact hskip.2
  · rw [mapStep_handle hdoc hskip, (newDocument_ok hdoc).uri_eq]
    by_cases heq : uri = parsed.data.docinfo.uri <;> simp [heq]

/-- A file that exists has a document afterwards. -/
theorem HasUris.indexFile (hX : env.index.xapian.Documented) (h : HasUris env.index st.index uris)
    (hagain : uris filename → AllReplaced st'.index)
    (hok : indexFile env st filename = .ok st') :
    HasUris env.index st'.index
      (fun uri => uris uri ∨ uri = filename ∧ env.sax.fileExists uri = true) := by
  rcases indexFile_cases hok with ⟨hnone, rfl⟩ | ⟨parsed, hparsed, hstep, -⟩
  · have hmissing : env.sax.fileExists filename = false := (fileExists_of_parsedFile hnone).symm
    refine h.congr fun uri => ?_
    rw [iff_self_or]
    rintro ⟨rfl, hexists⟩
    rw [hmissing] at hexists
    cases hexists
  · have hexists : env.sax.fileExists filename = true := (fileExists_of_parsedFile hparsed).symm
    have huri : parsed.data.docinfo.uri = filename :=
      (parsedFile_grown (extends_configInvariant st.config) (.refl _) hparsed).2
    refine (h.handler hX (fun hdone => hagain (huri ▸ hdone)) hstep).congr fun uri => ?_
    rw [huri]
    refine or_congr_right ⟨?_, And.left⟩
    rintro rfl
    exact ⟨rfl, hexists⟩

theorem AllReplaced.of_indexFile (h : AllReplaced st'.index)
    (hok : indexFile env st filename = .ok st') : AllReplaced st.index := by
  rcases indexFile_cases hok with ⟨-, rfl⟩ | ⟨parsed, -, hstep, -⟩
  · exact h
  · exact h.of_handler hstep

theorem HasUrisIfReplaced.indexFile (hX : env.index.xapian.Documented)
    (h : HasUrisIfReplaced env.index st.index uris) (hok : indexFile env st filename = .ok st') :
    HasUrisIfReplaced env.index st'.index
      (fun uri => uris uri ∨ uri = filename ∧ env.sax.fileExists uri = true) :=
  fun hall => (h (hall.of_indexFile hok)).indexFile hX (fun _ => hall) hok

theorem AllReplaced.of_run (h : AllReplaced st'.index)
    (hrun : run (indexFile env) st files = .ok st') : AllReplaced st.index := by
  induction files generalizing st with
  | nil => cases hrun; exact h
  | cons filename files ih =>
      obtain ⟨st₁, hstep, hrun⟩ := run_cons_ok_iff.mp hrun
      exact (ih hrun).of_indexFile hstep

/-- A URI that is deleted has no document afterwards. -/
theorem HasUris.delete {env : IndexEnv} {st st' : IndexState env.xapian} {name : XmlStr}
    (hX : env.xapian.Documented) (h : HasUris env st uris)
    (hok : deleteDocument env.xapian st name = .ok st') :
    HasUris env st' (fun uri => uris uri ∧ uri ≠ name) := by
  obtain ⟨m, hrefines, huris⟩ := h
  have hstep : indexStep env st (.delete name) = .ok st' := hok
  have hrep : Replaceable env st (.delete name) := trivial
  refine ⟨_, indexStep_refines hX hrefines hrep hstep, ?_⟩
  intro uri
  simp only [← huris]
  by_cases heq : uri = name <;> simp [mapStep, heq]

/-- After a run over files, each of them new or replaced, those that exist have documents too. -/
theorem HasUris.run (hX : env.index.xapian.Documented) (h : HasUris env.index st.index uris)
    (hagain : (files.Nodup ∧ ∀ path ∈ files, ¬uris path) ∨ AllReplaced st'.index)
    (hrun : Runs.run (LibSwish3.indexFile env) st files = .ok st') :
    HasUris env.index st'.index
      (fun uri => uris uri ∨ uri ∈ files ∧ env.sax.fileExists uri = true) := by
  induction files generalizing uris st with
  | nil =>
      cases hrun
      exact h.congr (by simp)
  | cons filename files ih =>
      obtain ⟨st₁, hstep, hrun⟩ := run_cons_ok_iff.mp hrun
      have h₁ := h.indexFile hX (fun hdone => (hagain.resolve_left fun hnew =>
        hnew.2 filename List.mem_cons_self hdone).of_run hrun) hstep
      refine (ih h₁ (hagain.imp_left ?_) hrun).congr ?_
      · rintro ⟨honce, hnew⟩
        obtain ⟨hfirst, honce⟩ := List.nodup_cons.mp honce
        refine ⟨honce, ?_⟩
        rintro path hpath (hdone | ⟨rfl, -⟩)
        · exact hnew path (List.mem_cons_of_mem _ hpath) hdone
        · exact hfirst hpath
      · intro uri
        rw [List.mem_cons, or_and_right, or_assoc]

/-- A run over files in a new index, each of them once or replaced, leaves one document there for
each that exists. -/
theorem documents_of_run {skipDuplicates : Bool} (hX : env.index.xapian.Documented)
    (hagain : files.Nodup ∨ AllReplaced st.index)
    (hrun : run (indexFile env)
      ⟨openWriteableIndex env.index.xapian true skipDuplicates env.index.xapian.created, config⟩
      files = .ok st) :
    HasUris env.index st.index (fun uri => uri ∈ files ∧ env.sax.fileExists uri = true) :=
  ((hasUris_created env.index hX skipDuplicates).run hX
    (hagain.imp_left fun honce => ⟨honce, fun _ _ h => h⟩) hrun).congr (by simp)

end HasUris

/-! ## A run over files -/

/-- Every document was made of a parse of the given kind, under a config whose names have the ids
that they have now. -/
def Searchable (env : ProgramEnv) (P : Parsed → Prop) (st : ProgramState env.index.xapian) :
    Prop :=
  ∀ n doc, env.index.xapian.document st.index.wdb n = some doc →
    ∃ parsed, P parsed ∧ newDocument env.index parsed = .ok doc ∧
      KeepsIds parsed.data.config st.config

/-- What the parser has made of this file when it was the file's turn in the run. -/
def ParsedInRun (env : ProgramEnv) (st₀ : ProgramState env.index.xapian) (filenames : List XmlStr)
    (filename : XmlStr) (parsed : Parsed) : Prop :=
  ∃ before after st, filenames = before ++ filename :: after ∧
    run (indexFile env) st₀ before = .ok st ∧
    parsedFile env st.config filename = .ok (some parsed)

section Run

variable {env : ProgramEnv} {st st' : ProgramState env.index.xapian} {filename : XmlStr}
  {filenames : List XmlStr} {name storedAs termPrefix word buffer : XmlStr} {doc : Document}
  {parsed : Parsed} {m : MetaName} {prop : Property} {config : Config} {P : Parsed → Prop}

theorem searchable_of_empty {index : IndexState env.index.xapian}
    (hempty : ∀ n, env.index.xapian.document index.wdb n = none) :
    Searchable env P ⟨index, config⟩ :=
  fun n doc hget => by cases (hempty n).symm.trans hget

theorem indexFile_searchable (hX : env.index.xapian.Documented) (h : Searchable env P st)
    (hfile : ∀ parsed, parsedFile env st.config filename = .ok (some parsed) → P parsed)
    (hok : indexFile env st filename = .ok st') : Searchable env P st' := by
  rcases indexFile_cases hok with ⟨-, rfl⟩ | ⟨parsed, hparsed, hstep, hconfig⟩
  · exact h
  · have hextends : Extends st.config parsed.data.config :=
      (parsedFile_grown (extends_configInvariant st.config) (.refl _) hparsed).1
    rw [← hconfig] at hextends
    refine indexStep_each hX (fun n doc hget => ?_) ?_ hstep
    · obtain ⟨p, hP, hp, hkept⟩ := h n doc hget
      exact ⟨p, hP, hp, hkept.trans hextends.keepsIds⟩
    · rintro p doc heq hdoc
      cases heq
      exact ⟨parsed, hfile parsed hparsed, hdoc, hconfig ▸ (Extends.refl _).keepsIds⟩

/-- What new names keep holds of the config behind a file. -/
theorem ConfigInvariant.indexFile {I : Config → Prop} (H : ConfigInvariant I) (hI : I st.config)
    (hok : LibSwish3.indexFile env st filename = .ok st') : I st'.config := by
  rcases indexFile_cases hok with ⟨-, rfl⟩ | ⟨parsed, hparsed, -, hconfig⟩
  · exact hI
  · rw [hconfig]
    exact (parsedFile_grown H hI hparsed).1

theorem ConfigInvariant.run_indexFile {I : Config → Prop} (H : ConfigInvariant I)
    (hI : I st.config) (hrun : run (LibSwish3.indexFile env) st filenames = .ok st') :
    I st'.config :=
  invariant (I := fun st => I st.config) (fun _ _ _ hst hok => H.indexFile hst hok) hI hrun

theorem searchable_of_run {st₀ : ProgramState env.index.xapian} (hX : env.index.xapian.Documented)
    (h : Searchable env P st₀)
    (hfiles : Steps (indexFile env) (fun st filename => ∀ parsed,
      parsedFile env st.config filename = .ok (some parsed) → P parsed) st₀ filenames)
    (hrun : run (indexFile env) st₀ filenames = .ok st) : Searchable env P st := by
  refine invariant_of_steps ?_ h hfiles hrun
  intro st₁ filename st₂ h hfile hok
  exact indexFile_searchable hX h hfile hok

/-- Each document in an index that was empty is a parse of the file it is named after. -/
theorem run_searchable {st₀ : ProgramState env.index.xapian} (hX : env.index.xapian.Documented)
    (hempty : ∀ n, env.index.xapian.document st₀.index.wdb n = none)
    (hrun : run (indexFile env) st₀ filenames = .ok st) :
    Searchable env (fun parsed => ParsedInRun env st₀ filenames parsed.data.docinfo.uri parsed)
      st := by
  refine searchable_of_run hX (searchable_of_empty hempty) ?_ hrun
  intro before filename after st heq hbefore parsed hparsed
  have huri : parsed.data.docinfo.uri = filename :=
    (parsedFile_grown (extends_configInvariant st.config) (.refl _) hparsed).2
  rw [huri]
  exact ⟨before, after, st, heq, hbefore, hparsed⟩

/-! ## Searching -/

/-- The prefix that a query has for a name belongs to the MetaName under which the parser stores
the text of that name. -/
theorem addPrefix_ok (hm : config.metanames.lookup name = some m)
    (hstored : metanameStoredAs config name = .ok storedAs)
    (hquery : addPrefix config m = .ok termPrefix) :
    ∃ m', config.metanames.lookup storedAs = some m' ∧ termPrefix = metaPrefix m'.id := by
  unfold metanameStoredAs at hstored
  rw [hm] at hstored
  obtain ⟨target, hread, hstored⟩ := bind_ok_iff.mp hstored
  obtain ⟨target', hread', hquery⟩ := bind_ok_iff.mp hquery
  cases hread.symm.trans hread'
  cases target with
  | none =>
      cases hstored
      cases hquery
      exact ⟨m, hm, rfl⟩
  | some target =>
      cases hstored
      rw [Option.getD_some]
      cases htarget : config.metanames.lookup target with
      | none => simp only [htarget] at hquery; cases hquery
      | some m' =>
          simp only [htarget] at hquery
          cases hquery
          exact ⟨m', rfl, rfl⟩

/-- A MetaName of the last config that has the id of one of an earlier config is that one. -/
theorem NewDocument.hasTerm_kept_iff (hX : env.index.xapian.Documented)
    (hdoc : NewDocument env.index parsed doc) (hids : UniqueIds config)
    (hkept : KeepsIds parsed.data.config config) (hm : config.metanames.lookup name = some m) :
    env.index.xapian.hasTerm doc (metaPrefix m.id ++ word) ↔
      ∃ buffer, parsed.data.metanames.lookup name = some buffer ∧
        word ∈ env.index.xapian.words (cstr buffer) := by
  rw [hdoc.hasTerm_metaPrefix_iff hX]
  constructor
  · rintro ⟨metaname, buffer, m', hbuffer, hm', hid, hword⟩
    obtain ⟨m'', hm'', hid'⟩ := hkept.metanames _ _ hm'
    have hsame : metaname = name :=
      hids.metanames _ _ _ _ hm'' hm (hid'.trans hid)
    exact ⟨buffer, hsame ▸ hbuffer, hword⟩
  · rintro ⟨buffer, hbuffer, hword⟩
    obtain ⟨m', hm'⟩ := mem_iff_exists_lookup.mp (hdoc.metanames name (mem_of_lookup hbuffer))
    obtain ⟨m'', hm'', hid⟩ := hkept.metanames _ _ hm'
    cases hm.symm.trans hm''
    exact ⟨name, buffer, m', hbuffer, hm', hid.symm, hword⟩

/-- How a document answers: `parsed` is what it was made of. -/
structure Answers (env : ProgramEnv) (config : Config) (parsed : Parsed) (doc : Document) :
    Prop where
  made : newDocument env.index parsed = .ok doc
  uri : parsed.data.docinfo.uri = doc.uri
  /-- A word under a name finds it in the buffer where the parser stores the text of that name. -/
  named : ∀ name m storedAs termPrefix word, config.metanames.lookup name = some m →
    metanameStoredAs config name = .ok storedAs → addPrefix config m = .ok termPrefix →
    (env.index.xapian.hasTerm doc (termPrefix ++ word) ↔
      ∃ buffer, parsed.data.metanames.lookup storedAs = some buffer ∧
        word ∈ env.index.xapian.words (cstr buffer))
  /-- A word without a name finds it in `swishdefault` or `swishtitle`. -/
  plain : ∀ text, ∀ word ∈ env.index.xapian.words text,
    (env.index.xapian.hasTerm doc word ↔
      ∃ metaname ∈ [Swish.defaultMetaname, Swish.titleMetaname], ∃ buffer,
        parsed.data.metanames.lookup metaname = some buffer ∧
        word ∈ env.index.xapian.words (cstr buffer))

theorem answers_of_newDocument (hX : env.index.xapian.Documented) (hids : UniqueIds config)
    (hnew : newDocument env.index parsed = .ok doc) (hkept : KeepsIds parsed.data.config config) :
    Answers env config parsed doc := by
  have hmade := newDocument_ok hnew
  refine ⟨hnew, hmade.uri_eq.symm, ?_, ?_⟩
  · intro name m storedAs termPrefix word hm hstored hquery
    obtain ⟨m', hm', rfl⟩ := addPrefix_ok hm hstored hquery
    exact hmade.hasTerm_kept_iff hX hids hkept hm'
  · intro text word hword
    exact hmade.hasTerm_word_iff hX (hX.words_colon text word hword)
      (hX.words_lower text word hword)

/-- In an index that was made from files, every document is one of them.  A word under a name
finds those that have it in the buffer where the parser stored the text of that name, and a word
without a name those that have it in `swishdefault` or `swishtitle`. -/
theorem run_search (hX : env.index.xapian.Documented) (hnumbered : FreshIds config)
    (hrun : run (indexFile env)
      ⟨openWriteableIndex env.index.xapian true false env.index.xapian.created, config⟩ filenames =
        .ok st)
    (hdoc : ∃ n, env.index.xapian.document st.index.wdb n = some doc) :
    ∃ parsed, ParsedInRun env
        ⟨openWriteableIndex env.index.xapian true false env.index.xapian.created, config⟩ filenames
        doc.uri parsed ∧
      Answers env st.config parsed doc := by
  obtain ⟨n, hget⟩ := hdoc
  obtain ⟨parsed, hparsed, hnew, hkept⟩ := run_searchable hX hX.created hrun n doc hget
  refine ⟨parsed, (newDocument_ok hnew).uri_eq ▸ hparsed, answers_of_newDocument hX ?_ hnew hkept⟩
  exact (freshIds_configInvariant.run_indexFile hnumbered hrun).toUniqueIds

/-- A directory with one document in it. -/
def greetingEnv : ProgramEnv where
  sax := .ofFiles
    [(lit "/a.xml", lit "<greeting>Hello world</greeting>",
      [.startDocument, .startElementNs (lit "greeting") none none [],
        .characters (lit "Hello world"), .endElementNs (lit "greeting") none, .endDocument])]
  index := plainIndexEnv
  analyzer := .idle
  fileMtime _ := 0
  depth := 1

/-- A new index, and the default config. -/
def greetingStart : ProgramState plainIndexEnv.xapian :=
  ⟨openWriteableIndex plainIndexEnv.xapian true false InMemory.created, configSetDefault (lit "C")⟩

theorem greeting_indexed : ∃ st doc,
    run (indexFile greetingEnv) greetingStart [lit "/a.xml"] = .ok st ∧
      plainIndexEnv.xapian.document st.index.wdb 1 = some doc := by
  have hdoc : ((run (indexFile greetingEnv) greetingStart [lit "/a.xml"]).toOption.bind fun st =>
      plainIndexEnv.xapian.document st.index.wdb 1).isSome = true := by
    decide +kernel
  obtain ⟨doc, hdoc⟩ := Option.isSome_iff_exists.mp hdoc
  obtain ⟨st, hst, hget⟩ := Option.bind_eq_some_iff.mp hdoc
  cases hrun : run (indexFile greetingEnv) greetingStart [lit "/a.xml"] with
  | error e => rw [hrun] at hst; cases hst
  | ok st' =>
      rw [hrun] at hst
      cases hst
      exact ⟨st, doc, rfl, hget⟩

theorem run_search_greeting : ∃ st doc parsed,
    run (indexFile greetingEnv) greetingStart [lit "/a.xml"] = .ok st ∧
      ParsedInRun greetingEnv greetingStart [lit "/a.xml"] doc.uri parsed ∧
      Answers greetingEnv st.config parsed doc := by
  obtain ⟨st, doc, hrun, hdoc⟩ := greeting_indexed
  obtain ⟨parsed, hparsed, hanswers⟩ :=
    run_search InMemory.documented (freshIds_configSetDefault _) hrun ⟨1, hdoc⟩
  exact ⟨st, doc, parsed, hrun, hparsed, hanswers⟩

theorem propertyValue_congr {X : Xapian} {p p' : Property} (htype : p'.type = p.type)
    (propBuf : XmlStr) : propertyValue X p' propBuf = propertyValue X p propBuf := by
  rw [propertyValue, htype, propertyValue]

/-- What the slots of a document hold: `parsed` is what it was made of. -/
structure HoldsValues (env : ProgramEnv) (config : Config) (parsed : Parsed) (title : XmlStr)
    (doc : Document) : Prop where
  made : newDocument env.index parsed = .ok doc
  title_ok : titleOf parsed.data = .ok title
  /-- The slot of a Property holds the value of its own buffer. -/
  property : ∀ name prop buffer, config.properties.lookup name = some prop →
    prop.aliasFor = .null → parsed.data.properties.lookup name = some buffer →
    propertyValue env.index.xapian prop (cstr buffer) = .ok (doc.getValue prop.id)
  /-- A slot that no Property has holds what the docinfo puts there. -/
  docinfo : ∀ slot, (∀ name prop, config.properties.lookup name = some prop → prop.id ≠ slot) →
    doc.getValue slot = docinfoValue parsed.data.docinfo parsed.mtime title slot

theorem holdsValues_of_newDocument (hids : UniqueIds config)
    (hnew : newDocument env.index parsed = .ok doc) (hkept : KeepsIds parsed.data.config config) :
    ∃ title, HoldsValues env config parsed title doc := by
  have hmade := newDocument_ok hnew
  obtain ⟨title, -, htitle, -⟩ := hmade.values
  refine ⟨title, hnew, htitle, ?_, ?_⟩
  · intro name prop buffer hprop hnull hbuffer
    obtain ⟨prop', hprop', hvalue⟩ :=
      hmade.getValue_property (hkept.uniqueIds hids).properties hbuffer
    obtain ⟨prop'', hprop'', hkeep⟩ := hkept.properties _ _ hprop'
    cases hprop.symm.trans hprop''
    rw [propertyValue_congr (hkeep.type (hkeep.alias_iff.mp hnull)), hkeep.id]
    exact hvalue
  · intro slot hslot
    have hfree : ∀ name prop, name ∈ parsed.data.properties →
        parsed.data.config.properties.lookup name = some prop → prop.id ≠ slot := by
      intro name prop _ hprop
      obtain ⟨prop', hprop', hkeep⟩ := hkept.properties _ _ hprop
      exact hkeep.id ▸ hslot name prop' hprop'
    obtain ⟨title', htitle', hvalue⟩ := hmade.getValue_docinfo hfree
    cases htitle.symm.trans htitle'
    exact hvalue

/-- In such an index the slot of a Property holds the value of its own buffer, for every
Property that a document has a buffer for, and a slot that no Property has what the docinfo puts
there. -/
theorem run_values (hX : env.index.xapian.Documented) (hnumbered : FreshIds config)
    (hrun : run (indexFile env)
      ⟨openWriteableIndex env.index.xapian true false env.index.xapian.created, config⟩ filenames =
        .ok st)
    (hdoc : ∃ n, env.index.xapian.document st.index.wdb n = some doc) :
    ∃ parsed, ParsedInRun env
        ⟨openWriteableIndex env.index.xapian true false env.index.xapian.created, config⟩ filenames
        doc.uri parsed ∧
      ∃ title, HoldsValues env st.config parsed title doc := by
  obtain ⟨n, hget⟩ := hdoc
  obtain ⟨parsed, hparsed, hnew, hkept⟩ := run_searchable hX hX.created hrun n doc hget
  refine ⟨parsed, (newDocument_ok hnew).uri_eq ▸ hparsed, holdsValues_of_newDocument ?_ hnew hkept⟩
  exact (freshIds_configInvariant.run_indexFile hnumbered hrun).toUniqueIds

theorem run_values_greeting : ∃ st doc parsed title,
    run (indexFile greetingEnv) greetingStart [lit "/a.xml"] = .ok st ∧
      ParsedInRun greetingEnv greetingStart [lit "/a.xml"] doc.uri parsed ∧
      HoldsValues greetingEnv st.config parsed title doc := by
  obtain ⟨st, doc, hrun, hdoc⟩ := greeting_indexed
  obtain ⟨parsed, hparsed, title, hholds⟩ :=
    run_values InMemory.documented (freshIds_configSetDefault _) hrun ⟨1, hdoc⟩
  exact ⟨st, doc, parsed, title, hrun, hparsed, hholds⟩

end Run

end LibSwish3
