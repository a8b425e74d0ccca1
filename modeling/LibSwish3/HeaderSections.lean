import LibSwish3.HeaderEntries
import LibSwish3.Flags
import LibSwish3.ListOwners

/-!
# Reading the sections of a written header

A section is read back into the table it was written from.  Names come back only if no two of
them have one id, since the reader stops at an id it has seen.

## Main definitions

* `FreshEntries` — the names and ids of entries are new.
* `reads_metanames`, `reads_properties`, `reads_hash`, `reads_lists`, `reads_misc`.
-/

namespace LibSwish3

open Runs Tables

/-! ## Entries with ids -/

section Fresh

variable {α : Type} {id : α → Int} {table : HashTable α} {ids : HashTable XmlStr}
  {e : Sigma fun _ : XmlStr => α} {es : List (Sigma fun _ : XmlStr => α)}

/-- The names and the ids of the entries are not in use, and no two of them are the same. -/
structure FreshEntries (id : α → Int) (table : HashTable α) (ids : HashTable XmlStr)
    (es : List (Sigma fun _ : XmlStr => α)) : Prop where
  name_new : ∀ e ∈ es, e.1 ∉ table
  id_new : ∀ e ∈ es, intToString (id e.2) ∉ ids
  distinct : es.Pairwise fun e f => e.1 ≠ f.1 ∧ id e.2 ≠ id f.2

/-- When the first entry is stored, the others are still fresh. -/
theorem FreshEntries.tail (h : FreshEntries id table ids (e :: es)) (a : α) (name : XmlStr) :
    FreshEntries id (table.insert e.1 a) (ids.insert (intToString (id e.2)) name) es := by
  obtain ⟨hdistinct, hrest⟩ := List.pairwise_cons.mp h.distinct
  refine ⟨fun f hf hmem => ?_, fun f hf hmem => ?_, hrest⟩
  · rcases (AList.mem_insert table).mp hmem with heq | hmem
    · exact (hdistinct f hf).1 heq.symm
    · exact h.name_new f (List.mem_cons_of_mem e hf) hmem
  · rcases (AList.mem_insert ids).mp hmem with heq | hmem
    · exact (hdistinct f hf).2 (intToString_inj.mp heq).symm
    · exact h.id_new f (List.mem_cons_of_mem e hf) hmem

/-- The entries of a table with distinct ids are fresh in an empty one. -/
theorem freshEntries_of_distinctOn {t : HashTable α} (h : DistinctOn id t) :
    FreshEntries id ∅ ∅ t.entries := by
  refine ⟨fun _ _ hmem => AList.notMem_empty _ hmem, fun _ _ hmem => AList.notMem_empty _ hmem, ?_⟩
  have hkeys : t.entries.Pairwise fun e f => e.1 ≠ f.1 := List.pairwise_map.mp t.nodupKeys
  refine hkeys.imp_of_mem fun {e f} he hf hne => ⟨hne, fun hid => hne ?_⟩
  exact h e.1 f.1 e.2 f.2 (mem_entries_iff.mp he) (mem_entries_iff.mp hf) hid

end Fresh

section Sections

variable {env : HeaderEnv} {mergeFile : XmlStr → Config → Swish Config} {h : Headmaker}
  {c : Config}

/-! ## MetaNames and Properties -/

theorem foldl_storeMetaname (es : List (Sigma fun _ : XmlStr => MetaName)) (c : Config) :
    ∃ metaIds, es.foldl (fun c e => c.storeMetaname e.1 (rereadMetaname e.1 e.2)) c = { c with
      metanames := es.foldl (fun t e => t.insert e.1 (rereadMetaname e.1 e.2)) c.metanames
      flags := { c.flags with metaIds } } := by
  induction es generalizing c with
  | nil => exact ⟨c.flags.metaIds, rfl⟩
  | cons e es ih =>
      obtain ⟨metaIds, hfold⟩ := ih (c.storeMetaname e.1 (rereadMetaname e.1 e.2))
      exact ⟨metaIds, hfold⟩

theorem foldl_storeProperty (es : List (Sigma fun _ : XmlStr => Property)) (c : Config) :
    ∃ propIds, es.foldl (fun c e => c.storeProperty e.1 (rereadProperty e.1 e.2)) c = { c with
      properties := es.foldl (fun t e => t.insert e.1 (rereadProperty e.1 e.2)) c.properties
      flags := { c.flags with propIds } } := by
  induction es generalizing c with
  | nil => exact ⟨c.flags.propIds, rfl⟩
  | cons e es ih =>
      obtain ⟨propIds, hfold⟩ := ih (c.storeProperty e.1 (rereadProperty e.1 e.2))
      exact ⟨propIds, hfold⟩

/-- The MetaNames are read back, if no two of them have one id. -/
theorem reads_metanames {metanames : HashTable MetaName} (hat : At (some .metas) c h)
    (hreads : ∀ k m, metanames.lookup k = some m → MetanameReads env.loc k m)
    (hids : DistinctOn MetaName.id metanames) (hnames : c.metanames = ∅)
    (hmetaIds : c.flags.metaIds = ∅) :
    ∃ h' metaIds, Reads env mergeFile h ((metanames.entries.map fun e =>
        HeaderElement.attributes e.1 (metanameAttrs e.2)).map HeaderElement.nodes) h' ∧
      At (some .metas) { c with
        metanames := mergeWith (fun k _ m => rereadMetaname k m) ∅ metanames
        flags := { c.flags with metaIds } } h' := by
  have hfresh : FreshEntries MetaName.id c.metanames c.flags.metaIds metanames.entries := by
    rw [hnames, hmetaIds]
    exact freshEntries_of_distinctOn hids
  obtain ⟨h', hread, hat'⟩ := reads_entries
    (f := fun c (e : Sigma fun _ : XmlStr => MetaName) =>
      c.storeMetaname e.1 (rereadMetaname e.1 e.2))
    (J := fun c es => FreshEntries MetaName.id c.metanames c.flags.metaIds es ∧
      ∀ e ∈ es, MetanameReads env.loc e.1 e.2)
    (fun c h e es hat hJ => read_metaname hat (hJ.2 e List.mem_cons_self)
      (hJ.1.name_new e List.mem_cons_self) (hJ.1.id_new e List.mem_cons_self))
    (fun c e es hJ => by
      refine ⟨?_, fun f hf => hJ.2 f (List.mem_cons_of_mem e hf)⟩
      have htail := hJ.1.tail (rereadMetaname e.1 e.2) e.1
      rw [← rereadMetaname_id e.1 e.2] at htail
      exact htail)
    hat ⟨hfresh, fun e he => hreads e.1 e.2 (mem_entries_iff.mp he)⟩
  obtain ⟨metaIds, hfold⟩ := foldl_storeMetaname metanames.entries c
  rw [hfold, hnames] at hat'
  exact ⟨h', metaIds, hread, hat'⟩

/-- The Properties are read back, if no two of them have one id. -/
theorem reads_properties {properties : HashTable Property} (hat : At (some .props) c h)
    (hreads : ∀ k p, properties.lookup k = some p → PropertyReads env.loc k p)
    (hids : DistinctOn Property.id properties) (hnames : c.properties = ∅)
    (hpropIds : c.flags.propIds = ∅) :
    ∃ h' propIds, Reads env mergeFile h ((properties.entries.map fun e =>
        HeaderElement.attributes e.1 (propertyAttrs e.2)).map HeaderElement.nodes) h' ∧
      At (some .props) { c with
        properties := mergeWith (fun k _ p => rereadProperty k p) ∅ properties
        flags := { c.flags with propIds } } h' := by
  have hfresh : FreshEntries Property.id c.properties c.flags.propIds properties.entries := by
    rw [hnames, hpropIds]
    exact freshEntries_of_distinctOn hids
  obtain ⟨h', hread, hat'⟩ := reads_entries
    (f := fun c (e : Sigma fun _ : XmlStr => Property) =>
      c.storeProperty e.1 (rereadProperty e.1 e.2))
    (J := fun c es => FreshEntries Property.id c.properties c.flags.propIds es ∧
      ∀ e ∈ es, PropertyReads env.loc e.1 e.2)
    (fun c h e es hat hJ => read_property hat (hJ.2 e List.mem_cons_self)
      (hJ.1.name_new e List.mem_cons_self) (hJ.1.id_new e List.mem_cons_self))
    (fun c e es hJ => by
      refine ⟨?_, fun f hf => hJ.2 f (List.mem_cons_of_mem e hf)⟩
      have htail := hJ.1.tail (rereadProperty e.1 e.2) e.1
      rw [← rereadProperty_id e.1 e.2] at htail
      exact htail)
    hat ⟨hfresh, fun e he => hreads e.1 e.2 (mem_entries_iff.mp he)⟩
  obtain ⟨propIds, hfold⟩ := foldl_storeProperty properties.entries c
  rw [hfold, hnames] at hat'
  exact ⟨h', propIds, hread, hat'⟩

/-! ## Values and words -/

/-- The values of a section are stored one after the other. -/
theorem reads_values {table : ValueTable} (hmisc : table ≠ .misc) {t : HashTable XmlStr}
    (hat : At table.part c h)
    (hreads : ∀ k v, t.lookup k = some v → EntryName k ∧ strAllWs v = false) :
    ∃ h', Reads env mergeFile h ((t.entries.map fun e =>
        HeaderElement.content e.1 e.2).map HeaderElement.nodes) h' ∧
      At table.part (t.entries.foldl (fun c e => c.setValue table e.1 e.2) c) h' := by
  refine reads_entries
    (J := fun _ (es : List (Sigma fun _ : XmlStr => XmlStr)) =>
      ∀ e ∈ es, EntryName e.1 ∧ strAllWs e.2 = false)
    (fun c h e es hat hJ => ?_) (fun _ e _ hJ f hf => hJ f (List.mem_cons_of_mem e hf)) hat
    (fun e he => hreads e.1 e.2 (mem_entries_iff.mp he))
  obtain ⟨hname, htext⟩ := hJ e List.mem_cons_self
  exact read_value hmisc hat hname htext

/-- The keys of a section of word lists are stored one after the other. -/
theorem reads_words {table : ValuesTable} {t : HashTable XmlStr} (hat : At table.part c h)
    (hreads : ∀ k v, t.lookup k = some v → EntryName v ∧ WordReads env.loc k) :
    ∃ h', Reads env mergeFile h ((t.entries.map fun e =>
        HeaderElement.content e.2 e.1).map HeaderElement.nodes) h' ∧
      At table.part (t.entries.foldl (fun c e => c.setValues [e.1] table e.2) c) h' := by
  refine reads_entries
    (J := fun _ (es : List (Sigma fun _ : XmlStr => XmlStr)) =>
      ∀ e ∈ es, EntryName e.2 ∧ WordReads env.loc e.1)
    (fun c h e es hat hJ => ?_) (fun _ e _ hJ f hf => hJ f (List.mem_cons_of_mem e hf)) hat
    (fun e he => hreads e.1 e.2 (mem_entries_iff.mp he))
  obtain ⟨hname, hword⟩ := hJ e List.mem_cons_self
  exact read_values hat hname hword

/-- The stores of a section amount to a merge. -/
theorem foldl_setValue (t : HashTable XmlStr) (c : Config) :
    t.entries.foldl (fun c e => c.setValue .index e.1 e.2) c =
        { c with index := hashMerge c.index t } ∧
      t.entries.foldl (fun c e => c.setValue .mimes e.1 e.2) c =
        { c with mimes := hashMerge c.mimes t } :=
  ⟨List.foldl_hom (fun index => { c with index }) fun _ _ => rfl,
    List.foldl_hom (fun mimes => { c with mimes }) fun _ _ => rfl⟩

theorem foldl_setValues (t : HashTable XmlStr) (c : Config) :
    t.entries.foldl (fun c e => c.setValues [e.1] .parsers e.2) c =
        { c with parsers := hashMerge c.parsers t } ∧
      t.entries.foldl (fun c e => c.setValues [e.1] .tagAliases e.2) c =
        { c with tagAliases := hashMerge c.tagAliases t } :=
  ⟨List.foldl_hom (fun parsers => { c with parsers }) fun _ _ => rfl,
    List.foldl_hom (fun tagAliases => { c with tagAliases }) fun _ _ => rfl⟩

/-! ## Directives -/

/-- A directive whose values have names has a known one. -/
structure ModeKnown (key value : XmlStr) : Prop where
  undefMetas : key = Swish.undefinedMetatags → ∃ mode, parseUndefMetas value = .ok mode
  undefAttrs : key = Swish.undefinedXmlAttributes → ∃ mode, parseUndefAttrs value = .ok mode

theorem directive_returns {F : Type} {parse : XmlStr → Swish F} {key : XmlStr}
    {misc : HashTable XmlStr} (dflt : F)
    (hknown : ∀ v, misc.lookup key = some v → ∃ f, parse v = .ok f) :
    ∃ f, directive parse key misc dflt = .ok f := by
  cases hlook : misc.lookup key with
  | none => exact ⟨dflt, directive_of_none hlook⟩
  | some v =>
      obtain ⟨f, hf⟩ := hknown v hlook
      exact ⟨f, (directive_of_some hlook).trans hf⟩

/-- The flags differ in what directives ask for, not in the ids. -/
structure ConfigFlags.SameIds (flags flags' : ConfigFlags) : Prop where
  maxMetaId : flags'.maxMetaId = flags.maxMetaId
  maxPropId : flags'.maxPropId = flags.maxPropId
  metaIds : flags'.metaIds = flags.metaIds
  propIds : flags'.propIds = flags.propIds

theorem ConfigFlags.SameIds.trans {flags flags' flags'' : ConfigFlags}
    (h : flags.SameIds flags') (h' : flags'.SameIds flags'') : flags.SameIds flags'' :=
  ⟨h'.maxMetaId.trans h.maxMetaId, h'.maxPropId.trans h.maxPropId, h'.metaIds.trans h.metaIds,
    h'.propIds.trans h.propIds⟩

/-- Known directives can be followed. -/
theorem handleSpecialMiscFlags_returns (hknown : Each ModeKnown c.misc) :
    ∃ flags : ConfigFlags, handleSpecialMiscFlags c = .ok { c with flags } ∧
      c.flags.SameIds flags := by
  obtain ⟨tokenize, htokenize⟩ := directive_parseBoolean Swish.tokenize c.misc c.flags.tokenize
  obtain ⟨cascade, hcascade⟩ :=
    directive_parseBoolean Swish.cascadeMetaContext c.misc c.flags.cascadeMetaContext
  obtain ⟨xmlns, hxmlns⟩ :=
    directive_parseBoolean Swish.ignoreXmlns c.misc c.flags.ignoreXmlns
  obtain ⟨metas, hmetas⟩ := directive_returns c.flags.undefMetas
    fun v hv => (hknown _ v hv).undefMetas rfl
  obtain ⟨attrs, hattrs⟩ := directive_returns c.flags.undefAttrs
    fun v hv => (hknown _ v hv).undefAttrs rfl
  refine ⟨{ c.flags with
    tokenize, cascadeMetaContext := cascade, ignoreXmlns := xmlns, undefMetas := metas,
    undefAttrs := attrs }, ?_, rfl, rfl, rfl, rfl⟩
  simp only [handleSpecialMiscFlags, htokenize, hcascade, hxmlns, hmetas, hattrs, ok_bind,
    pure_eq_ok]

/-- A directive that is written so that it can be read back. -/
structure MiscReads (key value : XmlStr) : Prop extends ModeKnown key value where
  entry : EntryName key
  ne_class : key ≠ Swish.classAttributes
  not_blank : strAllWs value = false

/-- Store the values one after the other. -/
def storeMisc (misc : HashTable XmlStr) (es : List (Sigma fun _ : XmlStr => XmlStr)) :
    HashTable XmlStr :=
  es.foldl (fun t e => t.insert e.1 e.2) misc

/-- The directives `rest` are still to come, then the table is `misc`. -/
structure MiscComing (c : Config) (misc : HashTable XmlStr) (c' : Config)
    (rest : List (Sigma fun _ : XmlStr => XmlStr)) : Prop where
  tables : ∃ misc flags, c' = { c with misc, flags }
  misc_eq : storeMisc c'.misc rest = misc
  ids : c.flags.SameIds c'.flags
  known : Each ModeKnown c'.misc
  reads : ∀ e ∈ rest, MiscReads e.1 e.2

/-- One directive. -/
theorem MiscComing.read {misc : HashTable XmlStr} {c' : Config}
    {e : Sigma fun _ : XmlStr => XmlStr} {rest : List (Sigma fun _ : XmlStr => XmlStr)}
    (hcoming : MiscComing c misc c' (e :: rest)) (hat : At none c' h) :
    ∃ c₁ h', run (readNode env mergeFile) h (HeaderElement.content e.1 e.2).nodes = .ok h' ∧
      At none c₁ h' ∧ MiscComing c misc c₁ rest := by
  obtain ⟨⟨misc', flags', rfl⟩, hmisc, hids, hknown, hreads⟩ := hcoming
  have he := hreads e List.mem_cons_self
  have hknown' : Each ModeKnown (misc'.insert e.1 e.2) := hknown.insert he.toModeKnown
  obtain ⟨flags, hflags, hids'⟩ := handleSpecialMiscFlags_returns
    (c := ({ c with misc := misc', flags := flags' } : Config).setValue .misc e.1 e.2) hknown'
  obtain ⟨h', hread, hat'⟩ := read_misc hat he.entry he.ne_class he.not_blank hflags
  exact ⟨_, h', hread, hat', ⟨_, flags, rfl⟩, hmisc, hids.trans hids', hknown',
    fun f hf => hreads f (List.mem_cons_of_mem e hf)⟩

variable (env mergeFile) in
/-- Directives are stored one after the other, and the ids stay. -/
theorem reads_misc {es : List (Sigma fun _ : XmlStr => XmlStr)} (hat : At none c h)
    (hes : ∀ e ∈ es, MiscReads e.1 e.2) (hknown : Each ModeKnown c.misc) :
    ∃ c' h', Reads env mergeFile h ((es.map fun e =>
        HeaderElement.content e.1 e.2).map HeaderElement.nodes) h' ∧
      At none c' h' ∧ MiscComing c (storeMisc c.misc es) c' [] :=
  reads_elements (fun _ _ _ _ hat hcoming => hcoming.read hat) hat
    ⟨⟨c.misc, c.flags, rfl⟩, rfl, ⟨rfl, rfl, rfl, rfl⟩, hknown, hes⟩

end Sections

end LibSwish3
