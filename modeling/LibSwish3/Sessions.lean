import LibSwish3.IndexFiles
import LibSwish3.Lib.Numbering
import LibSwish3.WrittenHeaders

/-!
# An index over several sessions

Every run of the program opens the index, merges the header that the run before has written, and
a config file if it is given one, and writes a header of its own.  The header has the ids of all
names, but not which is the largest; so names that a later run brings up get the ids behind the
default ones again.  As long as one run only brings up names, all ids stay distinct, the index can
be opened again, and every document answers under the names it was indexed by.  When a second run
brings up names, too, two names have one id, and nothing can open the index any more.

## Main definitions

* `headerConfig`, `openIndex` — the end of a run, and the start of the next one.
* `Writable` — a config whose header can be read back.
* `SessionOp`, `sessionStep` — files and runs.
* `InSession` — what holds in every run.
* `sessions_openIndex_iff`, `sessions_search`.
-/

namespace LibSwish3

open Records Runs Tables

namespace Swish

def xapianFormat : XmlStr := lit "Xapian"
def indexStemmerLang : XmlStr := lit "Stemmer"

end Swish

/-- What runs of the program on one index ask of their surroundings. -/
structure SessionEnv where
  program : ProgramEnv
  libVersion : XmlStr
  /-- `LC_CTYPE`. -/
  lcCtype : XmlStr
  /-- `--stemmer`. -/
  stemmerLang : Option XmlStr
  /-- The config files. -/
  files : HeaderEnv
  /-- How deep config files may include each other. -/
  includes : Nat
  /-- The languages that `Xapian::Stem` takes. -/
  knowsStemmer : XmlStr → Bool
  /-- What libxml2 reads of a header that it has written. -/
  reader : List HeaderPart → Reader
  version_not_blank : strAllWs libVersion = false

/-- The index settings, with a stemmer that is the one before; `main` returns 1 where that is of no
language. -/
def indexWithStemmer (knowsStemmer : XmlStr → Bool) (stemmerLang : Option XmlStr)
    (index : HashTable XmlStr) : Swish (HashTable XmlStr) :=
  match index.lookup Swish.indexStemmerLang with
  | some lang =>
    if stemmerLang.any (· ≠ lang) then
      croak [lit "You asked for --stemmer=", stemmerLang.getD [],
        lit " but index already configured for ", lang, lit "."]
    else if knowsStemmer lang then .ok index
    else .error .exitFailure
  | none => hashAdd index Swish.indexStemmerLang (stemmerLang.getD (lit "none"))

/-- `swish_config_add`, where there is a config file. -/
def configAdd (env : SessionEnv) (configFile : Option XmlStr) (config : Config) : Swish Config :=
  match configFile with
  | some file => headerMerge env.files (env.includes + 1) file config
  | none => .ok config

/-- What `main` does to the config before it indexes. -/
def startIndexing (env : SessionEnv) (configFile : Option XmlStr) (config : Config) :
    Swish Config := do
  let config ← configAdd env configFile config
  let index ← indexWithStemmer env.knowsStemmer env.stemmerLang config.index
  pure { config with index, flags := { config.flags with tokenize := false } }

/-- The config that the header of the index is written from. -/
def headerConfig (dbpath : XmlStr) (config : Config) : Config :=
  { config with
    index := (config.index.insert Swish.indexFormat Swish.xapianFormat).insert Swish.indexName
      dbpath }

/-- The file system with the header that was written. -/
def headerEnv (env : SessionEnv) (parts : List HeaderPart) : HeaderEnv :=
  { HeaderEnv.oneFile (env.reader parts) with loc := env.program.sax.loc }

/-- A run writes the header, and the next one, or a search, merges it. -/
def openIndex (env : SessionEnv) (dbpath : XmlStr) (config : Config) : Swish Config := do
  let parts ← headerWrite env.libVersion (headerConfig dbpath config)
  headerMerge (headerEnv env parts) 1 [] (configSetDefault env.lcCtype)

/-- What happens to an index that has a header. -/
inductive SessionOp
  | file (filename : XmlStr)
  | opens (dbpath : XmlStr) (skipDuplicates : Bool) (configFile : Option XmlStr)

def sessionStep (env : SessionEnv) (st : ProgramState env.program.index.xapian) :
    SessionOp → Except Stop (ProgramState env.program.index.xapian)
  | .file filename => indexFile env.program st filename
  | .opens dbpath skipDuplicates configFile => do
    let config ← (openIndex env dbpath st.config).mapError .library
    let config ← (startIndexing env configFile config).mapError .library
    pure ⟨openWriteableIndex env.program.index.xapian false skipDuplicates st.index.wdb, config⟩

/-- The first run creates the index. -/
def firstSession (env : SessionEnv) (configFile : Option XmlStr) :
    Except Stop (ProgramState env.program.index.xapian) := do
  let config ← (startIndexing env configFile (configSetDefault env.lcCtype)).mapError .library
  pure ⟨openWriteableIndex env.program.index.xapian true false env.program.index.xapian.created,
    config⟩

/-- The header can hold every entry of the config, and is XML. -/
structure Writable (env : SessionEnv) (dbpath : XmlStr) (config : Config) : Prop
    extends EntriesRead env.program.sax.loc (headerConfig dbpath config) where
  xml : (headerParts env.libVersion (headerConfig dbpath config)).all HeaderPart.isXml = true

/-- The config file defines no MetaNames and no Properties. -/
def DirectivesOnly (env : SessionEnv) (configFile : Option XmlStr) : Prop :=
  ∀ file, configFile = some file → ∀ config, headerRead env.files env.includes file = .ok config →
    config.metanames = ∅ ∧ config.properties = ∅ ∧
      config.flags.maxMetaId = -1 ∧ config.flags.maxPropId = -1

/-- A header that is written can hold every entry, and names come from documents only. -/
def PlainOp (env : SessionEnv) (st : ProgramState env.program.index.xapian) : SessionOp → Prop
  | .file _ => True
  | .opens dbpath _ configFile => Writable env dbpath st.config ∧ DirectivesOnly env configFile

/-! ## What new names leave as it was -/

/-- The config but for who has an id, which is that of `c₀`. -/
def Config.withIdsOf (c c₀ : Config) : Config :=
  { c with flags := { c.flags with metaIds := c₀.flags.metaIds, propIds := c₀.flags.propIds } }

section NewNames

variable {c₀ c c' : Config} {name dbpath : XmlStr} {m : MetaName} {prop : Property}

theorem testMetaAliasFor_mono (hwithin : ∀ k ∈ c.metanames, k ∈ c'.metanames)
    (h : testMetaAliasFor c name m = .ok ()) : testMetaAliasFor c' name m = .ok () := by
  obtain ⟨target, hread, h⟩ := bind_ok_iff.mp h
  refine bind_ok_iff.mpr ⟨target, hread, ?_⟩
  cases target with
  | none => rfl
  | some target =>
      by_cases hmem : target ∈ c.metanames
      · exact if_pos (hwithin target hmem)
      · simp only [if_neg hmem] at h
        cases h

theorem testPropAliasFor_mono (hwithin : ∀ k ∈ c.properties, k ∈ c'.properties)
    (h : testPropAliasFor c name prop = .ok ()) : testPropAliasFor c' name prop = .ok () := by
  obtain ⟨target, hread, h⟩ := bind_ok_iff.mp h
  refine bind_ok_iff.mpr ⟨target, hread, ?_⟩
  cases target with
  | none => rfl
  | some target =>
      by_cases hmem' : target ∈ c'.properties
      · exact if_pos hmem'
      · have hmem := mt (hwithin target) hmem'
        simp only [if_neg hmem, if_neg hmem'] at h ⊢
        rwa [propertyGetId_of_notMem hmem' hmem]

/-- New names that are no aliases pass the alias tests. -/
theorem configTestAliasFors_extends (htest : configTestAliasFors c = .ok ())
    (h : Extends c c') : configTestAliasFors c' = .ok () := by
  obtain ⟨⟨⟩, htestMetas, htestProps⟩ := bind_ok_iff.mp htest
  refine bind_ok_iff.mpr ⟨(), scanM_ok_iff.mpr fun k m hk => ?_,
    scanM_ok_iff.mpr fun k p hk => ?_⟩
  · cases hold : c.metanames.lookup k with
    | none =>
        rw [testMetaAliasFor, h.metanames.introduced k m hk hold]
        rfl
    | some m' =>
        cases hk.symm.trans (h.metanames.retained k m' hold)
        exact testMetaAliasFor_mono (fun _ => h.metanames.mem) (scanM_ok_iff.mp htestMetas k m hold)
  · cases hold : c.properties.lookup k with
    | none =>
        rw [testPropAliasFor, h.properties.introduced k p hk hold]
        rfl
    | some p' =>
        cases hk.symm.trans (h.properties.retained k p' hold)
        exact testPropAliasFor_mono (fun _ => h.properties.mem)
          (scanM_ok_iff.mp htestProps k p hold)

theorem extends_withIdsOf (h : Extends c c') (c₀ : Config) :
    Extends (c.withIdsOf c₀) (c'.withIdsOf c₀) := ⟨h.metanames, h.properties, h.cascade⟩

theorem fromDefault_configInvariant (c₀ : Config) :
    ConfigInvariant fun c => FromDefault c₀ (c.withIdsOf c₀) where
  metaname c name c' h hok := by
    have htested := configTestAliasFors_extends h.tested
      (extends_withIdsOf (metanameNew_extends hok) c₀)
    obtain ⟨metaIds, -, hok⟩ := bind_ok_iff.mp hok
    obtain ⟨metanames, hadd, hok⟩ := bind_ok_iff.mp hok
    obtain ⟨-, rfl⟩ := hashAdd_ok_iff.mp hadd
    cases hok
    exact { h with
      metanames := fun k hk => (AList.mem_insert _).mpr (.inr (h.metanames k hk))
      tested := htested }
  property c name c' h hok := by
    have htested := configTestAliasFors_extends h.tested
      (extends_withIdsOf (propertyNew_extends hok) c₀)
    obtain ⟨propIds, -, hok⟩ := bind_ok_iff.mp hok
    obtain ⟨properties, hadd, hok⟩ := bind_ok_iff.mp hok
    obtain ⟨-, rfl⟩ := hashAdd_ok_iff.mp hadd
    cases hok
    exact { h with
      properties := fun k hk => (AList.mem_insert _).mpr (.inr (h.properties k hk))
      presort := h.presort.insert ⟨rfl, rfl⟩
      tested := htested }

/-- The ids of new names are consecutive. -/
theorem consecutive_configInvariant (metaBase propBase : Int) (c₁ : Config) :
    ConfigInvariant fun c =>
      Consecutive MetaName.id metaBase c₁.metanames c.metanames c.flags.maxMetaId ∧
        Consecutive Property.id propBase c₁.properties c.properties c.flags.maxPropId where
  metaname c name c' h hok := by
    obtain ⟨metaIds, -, hok⟩ := bind_ok_iff.mp hok
    obtain ⟨metanames, hadd, hok⟩ := bind_ok_iff.mp hok
    obtain ⟨hnew, rfl⟩ := hashAdd_ok_iff.mp hadd
    cases hok
    exact ⟨h.1.insert hnew rfl, h.2⟩
  property c name c' h hok := by
    obtain ⟨propIds, -, hok⟩ := bind_ok_iff.mp hok
    obtain ⟨properties, hadd, hok⟩ := bind_ok_iff.mp hok
    obtain ⟨hnew, rfl⟩ := hashAdd_ok_iff.mp hadd
    cases hok
    exact ⟨h.1, h.2.insert hnew rfl⟩

theorem indexWithStemmer_ok {knowsStemmer : XmlStr → Bool} {stemmerLang : Option XmlStr}
    {index index' : HashTable XmlStr}
    (h : indexWithStemmer knowsStemmer stemmerLang index = .ok index') :
    ∀ k ∈ index, k ∈ index' := by
  unfold indexWithStemmer at h
  split at h
  · split_ifs at h <;> cases h
    exact fun _ hk => hk
  · obtain ⟨-, rfl⟩ := hashAdd_ok_iff.mp h
    exact fun k hk => (AList.mem_insert _).mpr (.inr hk)

/-- A run starts with the names and ids that it has found. -/
theorem startIndexing_ok {env : SessionEnv} {configFile : Option XmlStr}
    (hfile : DirectivesOnly env configFile) (hfrom : FromDefault c₀ c)
    (hmeta : -1 ≤ c.flags.maxMetaId) (hprop : -1 ≤ c.flags.maxPropId)
    (h : startIndexing env configFile c = .ok c') :
    FromDefault c₀ c' ∧ c'.metanames = c.metanames ∧ c'.properties = c.properties ∧
      c'.flags.maxMetaId = c.flags.maxMetaId ∧ c'.flags.maxPropId = c.flags.maxPropId := by
  have hmerged : ∀ config, configAdd env configFile c = .ok config →
      FromDefault c₀ config ∧ config.metanames = c.metanames ∧
        config.properties = c.properties ∧ config.flags.maxMetaId = c.flags.maxMetaId ∧
        config.flags.maxPropId = c.flags.maxPropId := by
    intro config hconfig
    cases configFile with
    | none =>
        cases hconfig
        exact ⟨hfrom, rfl, rfl, rfl, rfl⟩
    | some file =>
        have hfrom' := headerMerge_fromDefault hfrom hconfig
        obtain ⟨read, hread, hmerge, -, -⟩ := headerMerge_ok hconfig
        obtain ⟨hmetas, hprops, hmaxMeta, hmaxProp⟩ := hfile file rfl read hread
        obtain ⟨htables, hflags⟩ := configMerge_ok hmerge
        refine ⟨hfrom', ?_, ?_, ?_, ?_⟩
        · rw [htables.metanames, hmetas]
          rfl
        · rw [htables.properties, hprops]
          rfl
        · rw [hflags.maxMetaId, hmaxMeta, max_eq_left hmeta]
        · rw [hflags.maxPropId, hmaxProp, max_eq_left hprop]
  obtain ⟨config, hconfig, h⟩ := bind_ok_iff.mp h
  obtain ⟨index, hindex, h⟩ := bind_ok_iff.mp h
  cases h
  obtain ⟨hfrom', hrest⟩ := hmerged config hconfig
  exact ⟨{ hfrom' with index := fun k hk => indexWithStemmer_ok hindex k (hfrom'.index k hk) },
    hrest⟩

theorem FromDefault.withIdsOf (h : FromDefault c₀ c) : FromDefault c₀ (c.withIdsOf c₀) :=
  { h with
    metaIds := rfl
    propIds := rfl }

theorem fromDefault_headerConfig (h : FromDefault c₀ (c.withIdsOf c₀)) (dbpath : XmlStr) :
    FromDefault c₀ ((headerConfig dbpath c).withIdsOf c₀) :=
  { h with
    index := fun k hk =>
      (AList.mem_insert _).mpr (.inr ((AList.mem_insert _).mpr (.inr (h.index k hk)))) }

end NewNames

/-! ## A header that is merged again -/

section Restored

variable {c c' : Config}

theorem map_eq_of_rel {α β : Type} {R : α → α → Prop} {f : α → β} {o o' : Option α}
    (h : Option.Rel R o o') (hf : ∀ a b, R a b → f a = f b) : o.map f = o'.map f := by
  cases h with
  | some hab => exact congrArg some (hf _ _ hab)
  | none => rfl

theorem read_eq_none_iff {p : CPtr XmlStr} : p.read = .ok none ↔ p = .null := by
  cases p <;> simp [CPtr.read]

theorem SameText.null_iff {p q : CPtr XmlStr} (h : SameText p q) : p = .null ↔ q = .null := by
  rw [← read_eq_none_iff, ← read_eq_none_iff, h.read_eq]

theorem Restored.keepsIds (h : Restored c' c) : KeepsIds c c' where
  metanames k m hk := by
    obtain ⟨m', hk', hm⟩ := exists_of_rel_right (hk ▸ h.metanames k)
    exact ⟨m', hk', hm.id⟩
  properties k p hk := by
    obtain ⟨p', hk', hp⟩ := exists_of_rel_right (hk ▸ h.properties k)
    exact ⟨p', hk', hp.id, hp.aliasFor.null_iff, fun hnull => (hp.rest hnull).type⟩

end Restored

/-! ## What holds in every run -/

/-- The run opened the index with the config `opened`, and has brought up names since. -/
structure InSession (env : SessionEnv) (opened : Config)
    (st : ProgramState env.program.index.xapian) : Prop where
  ids : UniqueIds opened
  metaAbove : Above MetaName.id Swish.metaTitleId (configSetDefault env.lcCtype).metanames
    opened.metanames
  propAbove : Above Property.id Swish.propDescriptionId
    (configSetDefault env.lcCtype).properties opened.properties
  numbers : Consecutive MetaName.id Swish.metaTitleId opened.metanames st.config.metanames
      st.config.flags.maxMetaId ∧
    Consecutive Property.id Swish.propDescriptionId opened.properties st.config.properties
      st.config.flags.maxPropId
  fromDefault : FromDefault (configSetDefault env.lcCtype)
    (st.config.withIdsOf (configSetDefault env.lcCtype))

section Sessions

variable {env : SessionEnv} {opened config : Config}
  {st₀ st₁ st st' : ProgramState env.program.index.xapian} {filename dbpath : XmlStr}
  {skipDuplicates : Bool} {configFile : Option XmlStr} {ops : List SessionOp}
  {filenames : List XmlStr}

/-- A run has just opened the index. -/
theorem inSession_start {index : IndexState env.program.index.xapian}
    (hfile : DirectivesOnly env configFile) (hids : UniqueIds config)
    (hmetaAbove : Above MetaName.id Swish.metaTitleId (configSetDefault env.lcCtype).metanames
      config.metanames)
    (hpropAbove : Above Property.id Swish.propDescriptionId
      (configSetDefault env.lcCtype).properties config.properties)
    (hmaxMeta : config.flags.maxMetaId = Swish.metaTitleId)
    (hmaxProp : config.flags.maxPropId = Swish.propDescriptionId)
    (hfrom : FromDefault (configSetDefault env.lcCtype) config)
    (hstart : startIndexing env configFile config = .ok opened) :
    KeepsIds config opened ∧ InSession env opened ⟨index, opened⟩ := by
  obtain ⟨hfrom', hmetas, hprops, hmaxMeta', hmaxProp'⟩ := startIndexing_ok hfile hfrom
    (by rw [hmaxMeta]; decide) (by rw [hmaxProp]; decide) hstart
  refine ⟨⟨fun k m hk => ⟨m, hmetas ▸ hk, rfl⟩,
    fun k p hk => ⟨p, hprops ▸ hk, rfl, .rfl, fun _ => rfl⟩⟩, ?_⟩
  exact {
    ids := ⟨hmetas ▸ hids.metanames, hprops ▸ hids.properties⟩
    metaAbove := hmetas ▸ hmetaAbove
    propAbove := hprops ▸ hpropAbove
    numbers := by
      rw [hmaxMeta', hmaxMeta, hmaxProp', hmaxProp]
      exact ⟨.refl _ _ _, .refl _ _ _⟩
    fromDefault := hfrom'.withIdsOf }

theorem inSession_first (hfile : DirectivesOnly env configFile)
    (hfirst : firstSession env configFile = .ok st) : InSession env st.config st := by
  obtain ⟨config, hstart, hfirst⟩ := bind_ok_iff.mp hfirst
  cases hfirst
  have hnumbered := freshIds_configSetDefault env.lcCtype
  exact (inSession_start hfile hnumbered.toUniqueIds (.refl hnumbered.metaBound)
    (.refl hnumbered.propBound) rfl rfl (fromDefault_configSetDefault env.lcCtype)
    (mapError_ok_iff.mp hstart)).2

theorem inSession_file (h : InSession env opened st)
    (hok : indexFile env.program st filename = .ok st') : InSession env opened st' :=
  { h with
    numbers := (consecutive_configInvariant _ _ opened).indexFile h.numbers hok
    fromDefault := (fromDefault_configInvariant _).indexFile h.fromDefault hok }

theorem run_inSession (h : InSession env opened st)
    (hrun : run (indexFile env.program) st filenames = .ok st') : InSession env opened st' :=
  invariant (fun _ _ _ hst hok => inSession_file hst hok) h hrun

/-- The header that is written for an index, with the config that it is written for. -/
theorem Writable.writtenFile {c : Config} (h : Writable env dbpath c)
    (hreader : ReadsWritten env.reader) :
    WrittenFile (headerParts env.libVersion
        ((headerConfig dbpath c).withIdsOf (configSetDefault env.lcCtype)))
      (env.reader (headerParts env.libVersion (headerConfig dbpath c))) :=
  hreader _ h.xml

theorem Writable.entriesRead {c : Config} (h : Writable env dbpath c) :
    EntriesRead env.program.sax.loc
      ((headerConfig dbpath c).withIdsOf (configSetDefault env.lcCtype)) :=
  ⟨h.metanames, h.properties, h.parsers, h.tagAliases, h.index, h.mimes, h.misc⟩

theorem openReader_headerEnv (parts : List HeaderPart) :
    openReader (headerEnv env parts) [] = .ok ([], env.reader parts) := rfl

/-- The index can be opened exactly if no two names of one kind have the same id. -/
theorem openIndex_iff (hreader : ReadsWritten env.reader) (h : InSession env opened st)
    (hwritable : Writable env dbpath st.config) :
    (∃ config, openIndex env dbpath st.config = .ok config) ↔ UniqueIds st.config := by
  have hmerges := headerMerge_written_iff 0 env.lcCtype
    (fromDefault_headerConfig h.fromDefault dbpath) hwritable.entriesRead env.version_not_blank
    (openReader_headerEnv _) (hwritable.writtenFile hreader)
  rw [openIndex, headerWrite_ok _ hwritable.toEntriesRead, ok_bind]
  exact hmerges.trans ⟨fun hids => ⟨hids.metanames, hids.properties⟩,
    fun hids => ⟨hids.metanames, hids.properties⟩⟩

/-- The config that comes back. -/
theorem openIndex_restored (hreader : ReadsWritten env.reader) (h : InSession env opened st)
    (hwritable : Writable env dbpath st.config)
    (hopen : openIndex env dbpath st.config = .ok config) :
    UniqueIds st.config ∧ FromDefault (configSetDefault env.lcCtype) config ∧
      Restored config
        ((headerConfig dbpath st.config).withIdsOf (configSetDefault env.lcCtype)) := by
  refine ⟨(openIndex_iff hreader h hwritable).mp ⟨config, hopen⟩, ?_⟩
  rw [openIndex, headerWrite_ok _ hwritable.toEntriesRead, ok_bind] at hopen
  exact ⟨headerMerge_fromDefault (fromDefault_configSetDefault env.lcCtype) hopen,
    (headerMerge_written_ok (fromDefault_headerConfig h.fromDefault dbpath) hwritable.entriesRead
      env.version_not_blank (openReader_headerEnv _) (hwritable.writtenFile hreader) hopen).2⟩

/-- What has opened the index knows the names by the same ids. -/
theorem openIndex_keepsIds (hreader : ReadsWritten env.reader) (h : InSession env opened st)
    (hwritable : Writable env dbpath st.config)
    (hopen : openIndex env dbpath st.config = .ok config) : KeepsIds st.config config := by
  obtain ⟨-, -, hrestored⟩ := openIndex_restored hreader h hwritable hopen
  exact ⟨hrestored.keepsIds.metanames, hrestored.keepsIds.properties⟩

/-- The ids are distinct, and the next one is behind the default ones. -/
theorem openIndex_ids (hreader : ReadsWritten env.reader) (h : InSession env opened st)
    (hwritable : Writable env dbpath st.config)
    (hopen : openIndex env dbpath st.config = .ok config) :
    UniqueIds config ∧
      Above MetaName.id Swish.metaTitleId (configSetDefault env.lcCtype).metanames
        config.metanames ∧
      Above Property.id Swish.propDescriptionId (configSetDefault env.lcCtype).properties
        config.properties := by
  obtain ⟨hids, -, hrestored⟩ := openIndex_restored hreader h hwritable hopen
  have hmetas : ∀ k, (config.metanames.lookup k).map MetaName.id =
      (st.config.metanames.lookup k).map MetaName.id :=
    fun k => map_eq_of_rel (hrestored.metanames k) fun _ _ hm => hm.id
  have hprops : ∀ k, (config.properties.lookup k).map Property.id =
      (st.config.properties.lookup k).map Property.id :=
    fun k => map_eq_of_rel (hrestored.properties k) fun _ _ hp => hp.id
  exact ⟨⟨distinctOn_of_map hids.metanames hmetas, distinctOn_of_map hids.properties hprops⟩,
    (h.metaAbove.consecutive h.numbers.1).of_map hmetas,
    (h.propAbove.consecutive h.numbers.2).of_map hprops⟩

/-- A run opens the index with the names and ids of the one before. -/
theorem inSession_opens (hreader : ReadsWritten env.reader) (h : InSession env opened st)
    (hplain : PlainOp env st (.opens dbpath skipDuplicates configFile))
    (hok : sessionStep env st (.opens dbpath skipDuplicates configFile) = .ok st') :
    KeepsIds st.config st'.config ∧ st'.index.wdb = st.index.wdb ∧
      InSession env st'.config st' := by
  obtain ⟨hwritable, hfile⟩ := hplain
  obtain ⟨config, hopen, hok⟩ := bind_ok_iff.mp hok
  obtain ⟨config', hstart, hok⟩ := bind_ok_iff.mp hok
  cases hok
  rw [mapError_ok_iff] at hopen hstart
  obtain ⟨-, hfrom, hrestored⟩ := openIndex_restored hreader h hwritable hopen
  obtain ⟨hids, hmetaAbove, hpropAbove⟩ := openIndex_ids hreader h hwritable hopen
  obtain ⟨hkept, hsession⟩ := inSession_start hfile hids hmetaAbove hpropAbove
    hrestored.maxMetaId hrestored.maxPropId hfrom hstart
  exact ⟨(openIndex_keepsIds hreader h hwritable hopen).trans hkept, rfl, hsession⟩

/-- In whatever happens to an index, some run has opened it and brought up names since. -/
theorem run_sessions (hreader : ReadsWritten env.reader) (hfile : DirectivesOnly env configFile)
    (hfirst : firstSession env configFile = .ok st₀)
    (hplain : Steps (sessionStep env) (PlainOp env) st₀ ops)
    (hrun : run (sessionStep env) st₀ ops = .ok st) : ∃ opened, InSession env opened st := by
  refine invariant_of_steps (I := fun st => ∃ opened, InSession env opened st) ?_
    ⟨_, inSession_first hfile hfirst⟩ hplain hrun
  rintro st op st' ⟨opened, h⟩ hop hstep
  cases op with
  | file filename => exact ⟨opened, inSession_file h hstep⟩
  | opens dbpath skipDuplicates configFile => exact ⟨_, (inSession_opens hreader h hop hstep).2.2⟩

/-- A run has just opened the index. -/
def SessionOp.IsOpening : SessionOp → Prop
  | .file _ => False
  | .opens _ _ _ => True

theorem run_opened (hreader : ReadsWritten env.reader) (hfile : DirectivesOnly env configFile)
    (hfirst : firstSession env configFile = .ok st₀)
    (hplain : Steps (sessionStep env) (PlainOp env) st₀ ops)
    (hrun : run (sessionStep env) st₀ ops = .ok st)
    (hlast : ∀ op ∈ ops.getLast?, op.IsOpening) : InSession env st.config st := by
  rcases List.eq_nil_or_concat ops with rfl | ⟨before, op, rfl⟩
  · cases hrun
    exact inSession_first hfile hfirst
  · rw [List.concat_eq_append] at hrun hplain hlast
    obtain ⟨st₁, hbefore, hop⟩ := run_append_ok_iff.mp hrun
    obtain ⟨opened, h⟩ := run_sessions hreader hfile hfirst hplain.append_left hbefore
    rw [run_singleton] at hop
    cases op with
    | file filename => exact absurd (hlast (.file filename) (by simp)) id
    | opens dbpath skipDuplicates configFile =>
        exact (inSession_opens hreader h (hplain before _ [] st₁ rfl hbefore) hop).2.2

/-- After any number of runs with any files, where names come from documents only: when one more
run has opened the index and indexed its files, the index can be opened again exactly if that run
or all runs before it have brought up no MetaName, and the same for Properties. -/
theorem sessions_openIndex_iff (hreader : ReadsWritten env.reader)
    (hfile : DirectivesOnly env configFile) (hfirst : firstSession env configFile = .ok st₀)
    (hplain : Steps (sessionStep env) (PlainOp env) st₀ ops)
    (hrun : run (sessionStep env) st₀ ops = .ok st₁)
    (hlast : ∀ op ∈ ops.getLast?, op.IsOpening)
    (hfiles : run (indexFile env.program) st₁ filenames = .ok st)
    (hwritable : Writable env dbpath st.config) :
    (∃ config, openIndex env dbpath st.config = .ok config) ↔
      ((∀ k ∈ st₁.config.metanames, k ∈ (configSetDefault env.lcCtype).metanames) ∨
        ∀ k ∈ st.config.metanames, k ∈ st₁.config.metanames) ∧
      ((∀ k ∈ st₁.config.properties, k ∈ (configSetDefault env.lcCtype).properties) ∨
        ∀ k ∈ st.config.properties, k ∈ st₁.config.properties) := by
  have h := run_inSession (run_opened hreader hfile hfirst hplain hrun hlast) hfiles
  rw [openIndex_iff hreader h hwritable,
    ← h.numbers.1.distinctOn_iff_of_above h.metaAbove h.ids.metanames,
    ← h.numbers.2.distinctOn_iff_of_above h.propAbove h.ids.properties]
  exact ⟨fun hids => ⟨hids.metanames, hids.properties⟩, fun hids => ⟨hids.1, hids.2⟩⟩

/-- `<swish><UndefinedMetaTags>auto</UndefinedMetaTags></swish>` -/
def autoReader : Reader where
  nodes := [startNode Swish.headerRoot [], startNode Swish.undefinedMetatags [],
    textNode (lit "auto"), endNode Swish.undefinedMetatags, endNode Swish.headerRoot]
  complete := true
  text_not_blank := by decide

/-- The names of documents become MetaNames. -/
def autoSession : SessionEnv where
  program := greetingEnv
  libVersion := lit "3.0.0"
  lcCtype := lit "C"
  stemmerLang := none
  files := .oneFile autoReader
  includes := 0
  knowsStemmer lang := lang == lit "none"
  reader := writtenReader
  version_not_blank := by decide

theorem readsWritten_writtenReader : ReadsWritten writtenReader :=
  fun parts _ => writtenFile_writtenReader parts

theorem directivesOnly_auto : DirectivesOnly autoSession (some (lit "auto.xml")) := by
  intro file _ config hread
  obtain ⟨config', hread', hempty⟩ : ∃ config', headerRead (.oneFile autoReader) 0 file =
      .ok config' ∧ config'.metanames = ∅ ∧ config'.properties = ∅ ∧
        config'.flags.maxMetaId = -1 ∧ config'.flags.maxPropId = -1 :=
    ⟨_, rfl, rfl, rfl, rfl, rfl⟩
  cases hread.symm.trans hread'
  exact hempty

/-- New names leave the types alone. -/
theorem mimes_configInvariant (mimes : HashTable XmlStr) :
    ConfigInvariant fun c => c.mimes = mimes where
  metaname c name c' h hok := by
    obtain ⟨metaIds, -, hok⟩ := bind_ok_iff.mp hok
    obtain ⟨metanames, -, hok⟩ := bind_ok_iff.mp hok
    cases hok
    exact h
  property c name c' h hok := by
    obtain ⟨propIds, -, hok⟩ := bind_ok_iff.mp hok
    obtain ⟨properties, -, hok⟩ := bind_ok_iff.mp hok
    cases hok
    exact h

/-- A first run that brings up a name. -/
theorem autoSession_run : ∃ st₀ st, firstSession autoSession (some (lit "auto.xml")) = .ok st₀ ∧
    st₀.config.metanames = (configSetDefault (lit "C")).metanames ∧
    st₀.config.properties = (configSetDefault (lit "C")).properties ∧
    run (indexFile greetingEnv) st₀ [lit "/a.xml"] = .ok st ∧
    (lit "greeting") ∈ st.config.metanames ∧ Writable autoSession (lit "i") st.config ∧
    ∃ doc, plainIndexEnv.xapian.document st.index.wdb 1 = some doc := by
  obtain ⟨st₀, hfirst, hmimes, hmetas, hprops⟩ : ∃ st₀,
      firstSession autoSession (some (lit "auto.xml")) = .ok st₀ ∧
        st₀.config.mimes = mimeDefaults ∧
        st₀.config.metanames = (configSetDefault (lit "C")).metanames ∧
        st₀.config.properties = (configSetDefault (lit "C")).properties :=
    ⟨_, rfl, rfl, rfl, rfl⟩
  let state : Except Stop Bool := do
    let st ← run (indexFile greetingEnv) (← firstSession autoSession (some (lit "auto.xml")))
      [lit "/a.xml"]
    pure (decide ((lit "greeting") ∈ st.config.metanames) &&
      decide (EntriesReadButMimes .posix (headerConfig (lit "i") st.config)) &&
      (headerParts (lit "3.0.0") { headerConfig (lit "i") st.config with mimes := ∅ }).all
        HeaderPart.isXml &&
      (plainIndexEnv.xapian.document st.index.wdb 1).isSome)
  have hstate : state.toOption.map id = some true := by decide +kernel
  obtain ⟨b, hok, hb⟩ := exists_ok_of_map hstate
  obtain ⟨st₀', h₀, hok⟩ := bind_ok_iff.mp hok
  cases hfirst.symm.trans h₀
  obtain ⟨st, hrun, hok⟩ := bind_ok_iff.mp hok
  cases hok
  simp only [id, Bool.and_eq_true, decide_eq_true_eq, Option.isSome_iff_exists] at hb
  have hmimes' : (headerConfig (lit "i") st.config).mimes = mimeDefaults :=
    (mimes_configInvariant mimeDefaults).run_indexFile hmimes hrun
  obtain ⟨⟨⟨hname, hentries⟩, hxml⟩, hdoc⟩ := hb
  refine ⟨st₀, st, hfirst, hmetas, hprops, hrun, hname, ⟨hentries.entriesRead hmimes', ?_⟩, hdoc⟩
  rwa [headerParts_defaultMimes _ hmimes']

theorem sessions_openIndex_iff_first : ∃ st₀ st : ProgramState plainIndexEnv.xapian,
    run (indexFile greetingEnv) st₀ [lit "/a.xml"] = .ok st ∧
    (lit "greeting") ∈ st.config.metanames ∧
    ((∃ config, openIndex autoSession (lit "i") st.config = .ok config) ↔
      ((∀ k ∈ st₀.config.metanames, k ∈ (configSetDefault (lit "C")).metanames) ∨
        ∀ k ∈ st.config.metanames, k ∈ st₀.config.metanames) ∧
      ((∀ k ∈ st₀.config.properties, k ∈ (configSetDefault (lit "C")).properties) ∨
        ∀ k ∈ st.config.properties, k ∈ st₀.config.properties)) := by
  obtain ⟨st₀, st, hfirst, -, -, hfiles, hname, hwritable, -⟩ := autoSession_run
  exact ⟨st₀, st, hfiles, hname, sessions_openIndex_iff readsWritten_writtenReader
    directivesOnly_auto hfirst steps_nil rfl (by simp) hfiles hwritable⟩

/-! ## Searching -/

/-- What the parser has made of this file when it was the file's turn in one of the runs. -/
def ParsedInSession (env : SessionEnv) (st₀ : ProgramState env.program.index.xapian)
    (ops : List SessionOp) (filename : XmlStr) (parsed : Parsed) : Prop :=
  ∃ before after st, ops = before ++ .file filename :: after ∧
    run (sessionStep env) st₀ before = .ok st ∧
    parsedFile env.program st.config filename = .ok (some parsed)

/-- A file is parsed into what is of the given kind. -/
def ParsesInto (env : SessionEnv) (P : Parsed → Prop)
    (st : ProgramState env.program.index.xapian) : SessionOp → Prop
  | .file filename =>
    ∀ parsed, parsedFile env.program st.config filename = .ok (some parsed) → P parsed
  | .opens _ _ _ => True

theorem searchable_of_sessions {P : Parsed → Prop} (hX : env.program.index.xapian.Documented)
    (hreader : ReadsWritten env.reader) (hfile : DirectivesOnly env configFile)
    (hfirst : firstSession env configFile = .ok st₀) (h : Searchable env.program P st₀)
    (hplain : Steps (sessionStep env) (PlainOp env) st₀ ops)
    (hparses : Steps (sessionStep env) (ParsesInto env P) st₀ ops)
    (hrun : run (sessionStep env) st₀ ops = .ok st) : Searchable env.program P st := by
  have hsteps : Steps (sessionStep env) (fun st op => (∃ opened, InSession env opened st) ∧
      PlainOp env st op ∧ ParsesInto env P st op) st₀ ops := by
    rintro before op after st rfl hbefore
    exact ⟨run_sessions hreader hfile hfirst hplain.append_left hbefore,
      hplain before op after st rfl hbefore, hparses before op after st rfl hbefore⟩
  refine invariant_of_steps ?_ h hsteps hrun
  rintro st₁ op st₂ h ⟨⟨opened, hsession⟩, hop, hparsed⟩ hstep
  cases op with
  | file filename => exact indexFile_searchable hX h hparsed hstep
  | opens dbpath skipDuplicates configFile =>
      obtain ⟨hkept, hwdb, -⟩ := inSession_opens hreader hsession hop hstep
      intro n doc hget
      rw [hwdb] at hget
      obtain ⟨parsed, hP, hnew, hkept'⟩ := h n doc hget
      exact ⟨parsed, hP, hnew, hkept'.trans hkept⟩

/-- Each document is a parse of the file it is named after, in one of the runs. -/
theorem sessions_searchable (hX : env.program.index.xapian.Documented)
    (hreader : ReadsWritten env.reader) (hfile : DirectivesOnly env configFile)
    (hfirst : firstSession env configFile = .ok st₀)
    (hplain : Steps (sessionStep env) (PlainOp env) st₀ ops)
    (hrun : run (sessionStep env) st₀ ops = .ok st) :
    Searchable env.program
      (fun parsed => ParsedInSession env st₀ ops parsed.data.docinfo.uri parsed) st := by
  have hempty : ∀ n, env.program.index.xapian.document st₀.index.wdb n = none := by
    obtain ⟨config, -, hfirst⟩ := bind_ok_iff.mp hfirst
    cases hfirst
    exact hX.created
  refine searchable_of_sessions hX hreader hfile hfirst (searchable_of_empty hempty) hplain ?_
    hrun
  intro before op after st heq hbefore
  cases op with
  | opens dbpath skipDuplicates configFile => trivial
  | file filename =>
      intro parsed hparsed
      have huri : parsed.data.docinfo.uri = filename :=
        (parsedFile_grown (extends_configInvariant st.config) (.refl _) hparsed).2
      rw [huri]
      exact ⟨before, after, st, heq, hbefore, hparsed⟩

/-- After any number of runs, whatever opens the index, a search too, finds every document by the
words and values that its file has under each name. -/
theorem sessions_search {doc : Document} (hX : env.program.index.xapian.Documented)
    (hreader : ReadsWritten env.reader) (hfile : DirectivesOnly env configFile)
    (hfirst : firstSession env configFile = .ok st₀)
    (hplain : Steps (sessionStep env) (PlainOp env) st₀ ops)
    (hrun : run (sessionStep env) st₀ ops = .ok st) (hwritable : Writable env dbpath st.config)
    (hopen : openIndex env dbpath st.config = .ok config)
    (hdoc : ∃ n, env.program.index.xapian.document st.index.wdb n = some doc) :
    ∃ parsed, ParsedInSession env st₀ ops doc.uri parsed ∧
      Answers env.program config parsed doc ∧
      ∃ title, HoldsValues env.program config parsed title doc := by
  obtain ⟨n, hget⟩ := hdoc
  obtain ⟨parsed, hparsed, hnew, hkept⟩ :=
    sessions_searchable hX hreader hfile hfirst hplain hrun n doc hget
  obtain ⟨opened, h⟩ := run_sessions hreader hfile hfirst hplain hrun
  have hkept' := hkept.trans (openIndex_keepsIds hreader h hwritable hopen)
  have hids := (openIndex_ids hreader h hwritable hopen).1
  exact ⟨parsed, (newDocument_ok hnew).uri_eq ▸ hparsed,
    answers_of_newDocument hX hids hnew hkept', holdsValues_of_newDocument hids hnew hkept'⟩

theorem sessions_search_first : ∃ st₀ config doc parsed,
    ParsedInSession autoSession st₀ [.file (lit "/a.xml")] doc.uri parsed ∧
      Answers greetingEnv config parsed doc ∧
      ∃ title, HoldsValues greetingEnv config parsed title doc := by
  obtain ⟨st₀, st, hfirst, hmetas, hprops, hfiles, -, hwritable, doc, hdoc⟩ := autoSession_run
  have hplain : Steps (sessionStep autoSession) (PlainOp autoSession) st₀
      [.file (lit "/a.xml")] := steps_cons_iff.mpr ⟨trivial, fun _ _ => steps_nil⟩
  have h := run_inSession (inSession_first directivesOnly_auto hfirst) hfiles
  have hids : UniqueIds st.config :=
    ⟨(h.numbers.1.distinctOn_iff_of_above h.metaAbove h.ids.metanames).mpr
        (.inl fun _ hk => hmetas ▸ hk),
      (h.numbers.2.distinctOn_iff_of_above h.propAbove h.ids.properties).mpr
        (.inl fun _ hk => hprops ▸ hk)⟩
  obtain ⟨config, hopen⟩ := (openIndex_iff readsWritten_writtenReader h hwritable).mpr hids
  obtain ⟨parsed, hfound⟩ := sessions_search InMemory.documented readsWritten_writtenReader
    directivesOnly_auto hfirst hplain hfiles hwritable hopen ⟨1, hdoc⟩
  exact ⟨st₀, config, doc, parsed, hfound⟩

end Sessions

end LibSwish3
