import LibSwish3.HeaderSections

/-!
# Reading back what was written

`EntriesRead` says what the tables of a config must be like for each entry to be read back where
it came from.  Then the writer succeeds, and if besides no id is there twice, the reader makes a
config of the same tables.

## Main definitions

* `EntriesRead`, `Rereadable` — the conditions on the tables.
* `headerParts`, `headerWrite_ok` — the document that is written.
* `RereadFrom`, `readHeader_reread` — what the reader makes of it.
-/

namespace LibSwish3

open Runs Tables

/-- A name that an element can have, other than that of a text. -/
def IsTag (name : XmlStr) : Prop := name ≠ [] ∧ name ≠ lit "#text"

instance (name : XmlStr) : Decidable (IsTag name) := inferInstanceAs (Decidable (_ ∧ _))

/-- Every entry of the tables is written so that it can be read back on its own. -/
structure EntriesRead (loc : Locale) (c : Config) : Prop where
  metanames : Each (MetanameReads loc) c.metanames
  properties : Each (PropertyReads loc) c.properties
  parsers : Each (fun k v => EntryName v ∧ v ≠ [] ∧ WordReads loc k) c.parsers
  tagAliases : Each (fun k v => EntryName v ∧ v ≠ [] ∧ WordReads loc k) c.tagAliases
  index : Each (fun k v => EntryName k ∧ k ≠ [] ∧ strAllWs v = false) c.index
  mimes : Each (fun k v => EntryName k ∧ k ≠ [] ∧ strAllWs v = false)
    (restrict writesMime c.mimes)
  misc : Each (fun k v => MiscReads k v ∧ k ≠ []) c.misc

/-- The entries can be read back one after the other. -/
structure Rereadable (loc : Locale) (c : Config) : Prop extends EntriesRead loc c where
  metaIds : DistinctOn MetaName.id c.metanames
  propIds : DistinctOn Property.id c.properties

/-! ## The document that is written -/

/-- The versions that are written. -/
def versionEntries (libVersion : XmlStr) (c : Config) : List (Sigma fun _ : XmlStr => XmlStr) :=
  [⟨Swish.versionKey, Swish.version⟩, ⟨Swish.libVersionKey, libVersion⟩].filter (·.1 ∉ c.misc)

def metaElements (c : Config) : List HeaderElement :=
  c.metanames.entries.map fun e => .attributes e.1 (metanameAttrs e.2)

def propElements (c : Config) : List HeaderElement :=
  c.properties.entries.map fun e => .attributes e.1 (propertyAttrs e.2)

/-- An element for each entry, under its key. -/
def valueElements (es : List (Sigma fun _ : XmlStr => XmlStr)) : List HeaderElement :=
  es.map fun e => .content e.1 e.2

/-- An element for each entry, under its value. -/
def wordElements (hash : HashTable XmlStr) : List HeaderElement :=
  hash.entries.map fun e => .content e.2 e.1

/-- What is written where nothing fails. -/
def headerParts (libVersion : XmlStr) (c : Config) : List HeaderPart :=
  [.comment (lit "written by libswish3 - DO NOT EDIT")] ++
    (valueElements (versionEntries libVersion c)).map .element ++
    [.part Swish.metaSection (metaElements c), .part Swish.propSection (propElements c),
      .part Swish.parsersSection (wordElements c.parsers),
      .part Swish.mimeSection (valueElements (restrict writesMime c.mimes).entries),
      .part Swish.indexSection (valueElements c.index.entries),
      .part Swish.aliasSection (wordElements c.tagAliases)] ++
    (valueElements c.misc.entries).map .element

section Write

variable {loc : Locale} {c : Config}

theorem mapM_ok {α β ε : Type} {f : α → Except ε β} {g : α → β} {l : List α}
    (h : ∀ a ∈ l, f a = .ok (g a)) : l.mapM f = .ok (l.map g) := by
  induction l with
  | nil => rfl
  | cons a l ih =>
      rw [List.mapM_cons, h a List.mem_cons_self, ok_bind,
        ih fun b hb => h b (List.mem_cons_of_mem a hb)]
      rfl

theorem scanWrite_ok {α : Type} {write : α → XmlStr → Swish HeaderElement}
    {w : XmlStr → α → HeaderElement} {hash : HashTable α}
    (h : Each (fun k a => write a k = .ok (w k a)) hash) :
    scanWrite write hash = .ok (hash.entries.map fun e => w e.1 e.2) :=
  mapM_ok fun e he => h e.1 e.2 (mem_entries_iff.mp he)

theorem writeElementWithContent_ok {tag content : XmlStr} (h : tag ≠ []) :
    writeElementWithContent tag content = .ok (.content tag content) := if_neg h

theorem map_writeVersion (libVersion : XmlStr) (c : Config) :
    writeVersion c Swish.versionKey Swish.version ++
        writeVersion c Swish.libVersionKey libVersion =
      (valueElements (versionEntries libVersion c)).map .element := by
  rw [writeVersion, writeVersion, versionEntries]
  by_cases hversion : Swish.versionKey ∈ c.misc <;>
    by_cases hlib : Swish.libVersionKey ∈ c.misc <;> simp [hversion, hlib, valueElements]

/-- The writer does not fail: it does not look at ids. -/
theorem headerWrite_ok (libVersion : XmlStr) (h : EntriesRead loc c) :
    headerWrite libVersion c = .ok (headerParts libVersion c) := by
  have hmetas : writeMetanames c.metanames = .ok (metaElements c) :=
    scanWrite_ok fun k m hk => writeMetaname_ok (h.metanames k m hk)
  have hprops : writeProperties c.properties = .ok (propElements c) :=
    scanWrite_ok fun k p hk => writeProperty_ok (h.properties k p hk)
  have hparsers : writeParsers c.parsers = .ok (wordElements c.parsers) :=
    scanWrite_ok fun k v hk => writeElementWithContent_ok (h.parsers k v hk).2.1
  have hmimes : writeMimes c.mimes =
      .ok (valueElements (restrict writesMime c.mimes).entries) :=
    mapM_ok fun e he => writeElementWithContent_ok (h.mimes e.1 e.2 (mem_entries_iff.mp he)).2.1
  have hindex : writeIndex c.index = .ok (valueElements c.index.entries) :=
    scanWrite_ok fun k v hk => writeElementWithContent_ok (h.index k v hk).2.1
  have haliases : writeTagAliases c.tagAliases = .ok (wordElements c.tagAliases) :=
    scanWrite_ok fun k v hk => writeElementWithContent_ok (h.tagAliases k v hk).2.1
  have hmisc : writeMisc c.misc = .ok (valueElements c.misc.entries) :=
    scanWrite_ok fun k v hk => writeElementWithContent_ok (h.misc k v hk).2
  simp only [headerWrite, hmetas, hprops, hparsers, hmimes, hindex, haliases, hmisc, ok_bind,
    pure_eq_ok, headerParts, ← map_writeVersion, List.append_assoc]

end Write

/-! ## What the reader makes of it -/

/-- The tables of `config` are those of `c`, as they are read back. -/
structure RereadFrom (libVersion : XmlStr) (c config : Config) : Prop where
  metanames : config.metanames = mergeWith (fun k _ m => rereadMetaname k m) ∅ c.metanames
  properties : config.properties = mergeWith (fun k _ p => rereadProperty k p) ∅ c.properties
  parsers : config.parsers = hashMerge ∅ c.parsers
  mimes : config.mimes = hashMerge ∅ (restrict writesMime c.mimes)
  index : config.index = hashMerge ∅ c.index
  tagAliases : config.tagAliases = hashMerge ∅ c.tagAliases
  misc : config.misc = hashMerge (storeMisc ∅ (versionEntries libVersion c)) c.misc
  stringlists : config.stringlists = ∅
  maxMetaId : config.flags.maxMetaId = -1
  maxPropId : config.flags.maxPropId = -1

section Reread

variable {env : HeaderEnv} {mergeFile : XmlStr → Config → Swish Config} {h : Headmaker}
  {c : Config} {libVersion : XmlStr}

theorem pieces_elements (elements : List HeaderElement) :
    (elements.map HeaderPart.element).flatMap HeaderPart.pieces =
      elements.map HeaderElement.nodes := by
  induction elements with
  | nil => rfl
  | cons e elements ih => rw [List.map_cons, List.flatMap_cons, ih]; rfl

/-- The versions are read as directives. -/
theorem miscReads_version {key value : XmlStr}
    (hkey : key = Swish.versionKey ∨ key = Swish.libVersionKey) (hvalue : strAllWs value = false) :
    MiscReads key value := by
  have hentry : EntryName key := by
    rcases hkey with rfl | rfl <;> exact ⟨⟨by decide, by decide, by decide⟩, by decide⟩
  refine ⟨⟨?_, ?_⟩, hentry, ?_, hvalue⟩
  all_goals
    rcases hkey with rfl | rfl <;> exact fun h => absurd h (by decide)

theorem miscReads_versions (hversion : strAllWs libVersion = false) :
    ∀ e ∈ versionEntries libVersion c, MiscReads e.1 e.2 := by
  intro e he
  have hmem := (List.mem_filter.mp he).1
  simp only [List.mem_cons, List.not_mem_nil, or_false] at hmem
  rcases hmem with rfl | rfl
  · exact miscReads_version (.inl rfl) (by decide)
  · exact miscReads_version (.inr rfl) hversion

/-! ### The sections -/

section Parts

variable (env mergeFile) {part : Option Section} {c₀ : Config}

theorem reads_metaPart (hat : At part c₀ h) (hreads : Each (MetanameReads env.loc) c.metanames)
    (hids : DistinctOn MetaName.id c.metanames) (hnames : c₀.metanames = ∅)
    (hmetaIds : c₀.flags.metaIds = ∅) :
    ∃ c' h' part', Reads env mergeFile h (HeaderPart.part Swish.metaSection (metaElements c)).pieces
        h' ∧
      At part' c' h' ∧ (metaElements c ≠ [] → part' = none) ∧
      ∃ metaIds, c' = { c₀ with
        metanames := mergeWith (fun k _ m => rereadMetaname k m) ∅ c.metanames
        flags := { c₀.flags with metaIds } } := by
  refine reads_part hat rfl fun h hat => ?_
  obtain ⟨h', metaIds, hreads, hat'⟩ := reads_metanames hat hreads hids hnames hmetaIds
  exact ⟨_, h', hreads, hat', metaIds, rfl⟩

theorem reads_propPart (hat : At part c₀ h) (hreads : Each (PropertyReads env.loc) c.properties)
    (hids : DistinctOn Property.id c.properties) (hnames : c₀.properties = ∅)
    (hpropIds : c₀.flags.propIds = ∅) :
    ∃ c' h' part', Reads env mergeFile h (HeaderPart.part Swish.propSection (propElements c)).pieces
        h' ∧
      At part' c' h' ∧ (propElements c ≠ [] → part' = none) ∧
      ∃ propIds, c' = { c₀ with
        properties := mergeWith (fun k _ p => rereadProperty k p) ∅ c.properties
        flags := { c₀.flags with propIds } } := by
  refine reads_part hat rfl fun h hat => ?_
  obtain ⟨h', propIds, hreads, hat'⟩ := reads_properties hat hreads hids hnames hpropIds
  exact ⟨_, h', hreads, hat', propIds, rfl⟩

/-- A section of values. -/
theorem reads_valuePart (table : ValueTable) {name : XmlStr} {s : Section} {t : HashTable XmlStr}
    (hat : At part c₀ h) (hname : sectionOf name = some s) (hpart : table.part = some s)
    (hreads : Each (fun k v => EntryName k ∧ k ≠ [] ∧ strAllWs v = false) t) :
    ∃ c' h' part', Reads env mergeFile h (HeaderPart.part name (valueElements t.entries)).pieces
        h' ∧
      At part' c' h' ∧ (valueElements t.entries ≠ [] → part' = none) ∧
      c' = t.entries.foldl (fun c e => c.setValue table e.1 e.2) c₀ := by
  refine reads_part hat hname fun h hat => ?_
  rw [← hpart] at hat
  have hmisc : table ≠ .misc := by
    rintro rfl
    cases hpart
  obtain ⟨h', hreads, hat'⟩ := reads_values hmisc hat
    fun k v hk => ⟨(hreads k v hk).1, (hreads k v hk).2.2⟩
  exact ⟨_, h', hreads, hpart ▸ hat', rfl⟩

/-- A section of word lists. -/
theorem reads_wordPart (table : ValuesTable) {name : XmlStr} {s : Section} {t : HashTable XmlStr}
    (hat : At part c₀ h) (hname : sectionOf name = some s) (hpart : table.part = some s)
    (hreads : Each (fun k v => EntryName v ∧ v ≠ [] ∧ WordReads env.loc k) t) :
    ∃ c' h' part', Reads env mergeFile h (HeaderPart.part name (wordElements t)).pieces h' ∧
      At part' c' h' ∧ (wordElements t ≠ [] → part' = none) ∧
      c' = t.entries.foldl (fun c e => c.setValues [e.1] table e.2) c₀ := by
  refine reads_part hat hname fun h hat => ?_
  rw [← hpart] at hat
  obtain ⟨h', hreads, hat'⟩ := reads_words hat
    fun k v hk => ⟨(hreads k v hk).1, (hreads k v hk).2.2⟩
  exact ⟨_, h', hreads, hpart ▸ hat', rfl⟩

end Parts

variable (mergeFile) in
/-- The whole document below the root. -/
theorem reads_document (hat : At none configInit h) (hreread : Rereadable env.loc c)
    (hversion : strAllWs libVersion = false) (hclosed : c.tagAliases.entries ≠ []) :
    ∃ config h', Reads env mergeFile h
        ((headerParts libVersion c).flatMap HeaderPart.pieces ++ [[endNode Swish.headerRoot]]) h' ∧
      At none config h' ∧ RereadFrom libVersion c config := by
  have hcomment := reads_comment env mergeFile hat
    (lit "written by libswish3 - DO NOT EDIT")
  obtain ⟨c₁, h₁, hreads₁, hat₁, hcoming₁⟩ :=
    reads_misc env mergeFile hat (miscReads_versions (c := c) hversion) each_empty
  obtain ⟨⟨misc₁, flags₁, rfl⟩, hmisc₁, hids₁, hknown₁, -⟩ := hcoming₁
  obtain ⟨c₂, h₂, part₂, hreads₂, hat₂, -, metaIds, rfl⟩ := reads_metaPart env mergeFile hat₁
    hreread.metanames hreread.metaIds rfl hids₁.metaIds
  obtain ⟨c₃, h₃, part₃, hreads₃, hat₃, -, propIds, rfl⟩ := reads_propPart env mergeFile hat₂
    hreread.properties hreread.propIds rfl hids₁.propIds
  obtain ⟨c₄, h₄, part₄, hreads₄, hat₄, -, rfl⟩ := reads_wordPart env mergeFile .parsers
    hat₃ (show sectionOf Swish.parsersSection = some .parser from rfl) rfl hreread.parsers
  rw [(foldl_setValues _ _).1] at hat₄
  obtain ⟨c₅, h₅, part₅, hreads₅, hat₅, -, rfl⟩ := reads_valuePart env mergeFile .mimes
    hat₄ (show sectionOf Swish.mimeSection = some .mime from rfl) rfl hreread.mimes
  rw [(foldl_setValue _ _).2] at hat₅
  obtain ⟨c₆, h₆, part₆, hreads₆, hat₆, -, rfl⟩ := reads_valuePart env mergeFile .index
    hat₅ (show sectionOf Swish.indexSection = some .index from rfl) rfl hreread.index
  rw [(foldl_setValue _ _).1] at hat₆
  obtain ⟨c₇, h₇, part₇, hreads₇, hat₇, hnone, rfl⟩ := reads_wordPart env mergeFile .tagAliases
    hat₆ (show sectionOf Swish.aliasSection = some .aliases from rfl) rfl hreread.tagAliases
  rw [(foldl_setValues _ _).2, hnone (by simpa [wordElements] using hclosed)] at hat₇
  obtain ⟨c₈, h₈, hreads₈, hat₈, hcoming₈⟩ := reads_misc env mergeFile hat₇
    (fun e he => (hreread.misc e.1 e.2 (mem_entries_iff.mp he)).1) hknown₁
  obtain ⟨⟨misc₈, flags₈, rfl⟩, hmisc₈, hids₈, -, -⟩ := hcoming₈
  refine ⟨_, h₈, ?_, hat₈, rfl, rfl, rfl, rfl, rfl, rfl, ?_, rfl, ?_, ?_⟩
  · simp only [headerParts, List.flatMap_append, pieces_elements, List.flatMap_cons,
      List.flatMap_nil, List.append_nil, List.append_assoc]
    exact hcomment.append (hreads₁.append (hreads₂.append (hreads₃.append (hreads₄.append
      (hreads₅.append (hreads₆.append (hreads₇.append (hreads₈.append
        (reads_rootEnd env mergeFile hat₈)))))))))
  · exact hmisc₈.trans (congrArg (hashMerge · c.misc) hmisc₁)
  · exact hids₈.maxMetaId.trans hids₁.maxMetaId
  · exact hids₈.maxPropId.trans hids₁.maxPropId

variable (mergeFile) in
/-- A file that was written for `c` is read without failure. -/
theorem readHeader_reread {filename confFile : XmlStr} {reader : Reader}
    (hreread : Rereadable env.loc c) (hversion : strAllWs libVersion = false)
    (hclosed : c.tagAliases.entries ≠ [])
    (hopen : openReader env filename = .ok (confFile, reader))
    (hfile : WrittenFile (headerParts libVersion c) reader) :
    ∃ config, readHeader env mergeFile filename = .ok config ∧
      RereadFrom libVersion c config := by
  obtain ⟨body, hnodes, hindents⟩ := hfile.nodes
  let h₀ : Headmaker := { initHeadmaker env confFile with isValid := true }
  have hat₀ : At none configInit h₀ := ⟨rfl, rfl, rfl, rfl⟩
  have hroot : readNode env mergeFile (initHeadmaker env confFile)
      (startNode Swish.headerRoot []) = .ok h₀ := rfl
  obtain ⟨config, h', hreads, hat', hfrom⟩ :=
    reads_document mergeFile hat₀ hreread hversion hclosed
  refine ⟨config, ?_, hfrom⟩
  rw [readHeader, hopen, ok_bind]
  simp only [hnodes, run_cons_of_ok hroot, hreads.indents hat₀ hindents, ok_bind, readEnd,
    hat'.awaiting, hfile.complete, if_true, hat'.config]

end Reread

end LibSwish3
