import LibSwish3.RoundTrip

/-!
# When a written header can be read again

The writer does not look at ids, and the reader stops at an id that it has seen.  So whatever a
config came from, the file that is written for it can be merged into a default config exactly if
the ids of its MetaNames are distinct, and those of its Properties.

## Main definitions

* `uniqueIds_of_read` — a document that is read without failure has distinct ids.
* `headerMerge_written_iff`.
-/

namespace LibSwish3

open Runs Tables

section Decidable

instance (name : XmlStr) : Decidable (EntryName name) :=
  decidable_of_iff (name ≠ Swish.headerRoot ∧ name ≠ Swish.includeFile ∧ sectionOf name = none ∧
      name ≠ lit "#text")
    ⟨fun h => ⟨⟨h.1, h.2.1, h.2.2.1⟩, h.2.2.2⟩,
      fun h => ⟨h.ne_root, h.ne_include, h.no_section, h.ne_text⟩⟩

/-- The name that an alias stands for is in lower case. -/
def TargetLower (loc : Locale) : CPtr XmlStr → Prop
  | .live target => strTolower loc target = .ok target
  | .null | .freed => True

theorem targetLower_iff {loc : Locale} {p : CPtr XmlStr} :
    TargetLower loc p ↔ ∀ target, p = .live target → strTolower loc target = .ok target := by
  cases p <;> simp [TargetLower]

instance (loc : Locale) (p : CPtr XmlStr) : Decidable (TargetLower loc p) :=
  match p with
  | .live target => inferInstanceAs (Decidable (strTolower loc target = .ok target))
  | .null | .freed => inferInstanceAs (Decidable True)

instance (loc : Locale) (name : XmlStr) (m : MetaName) : Decidable (MetanameReads loc name m) :=
  decidable_of_iff (EntryName name ∧ name ≠ [] ∧ strTolower loc name = .ok name ∧ IsInt m.id ∧
      m.id ≠ -1 ∧ IsInt m.bias ∧ TargetLower loc m.aliasFor ∧ m.aliasFor ≠ .freed)
    ⟨fun ⟨h₁, h₂, h₃, h₄, h₅, h₆, h₇, h₈⟩ =>
        ⟨h₁, h₂, h₃, h₄, h₅, h₆, targetLower_iff.mp h₇, h₈⟩,
      fun h => ⟨h.entry, h.not_empty, h.lower, h.id, h.id_ne, h.bias,
        targetLower_iff.mpr h.target, h.not_freed⟩⟩

instance (loc : Locale) (name : XmlStr) (prop : Property) :
    Decidable (PropertyReads loc name prop) :=
  decidable_of_iff (EntryName name ∧ name ≠ [] ∧ strTolower loc name = .ok name ∧
      IsInt prop.id ∧ prop.id ≠ -1 ∧ (prop.aliasFor = .null → IsInt prop.type ∧ 0 ≤ prop.type) ∧
      prop.max < 2 ^ 32 ∧ prop.sortLength < 2 ^ 32 ∧ TargetLower loc prop.aliasFor ∧
      prop.aliasFor ≠ .freed)
    ⟨fun ⟨h₁, h₂, h₃, h₄, h₅, h₆, h₇, h₈, h₉, h₁₀⟩ =>
        ⟨h₁, h₂, h₃, h₄, h₅, h₆, h₇, h₈, targetLower_iff.mp h₉, h₁₀⟩,
      fun h => ⟨h.entry, h.not_empty, h.lower, h.id, h.id_ne, h.type, h.max, h.sortLength,
        targetLower_iff.mpr h.target, h.not_freed⟩⟩

instance (loc : Locale) (word : XmlStr) : Decidable (WordReads loc word) :=
  decidable_of_iff (strTolower loc word = .ok word ∧ stringlistBuild word = .ok [word])
    ⟨fun h => ⟨h.1, h.2⟩, fun h => ⟨h.lower, h.alone⟩⟩

instance (key value : XmlStr) : Decidable (ModeKnown key value) :=
  decidable_of_iff ((key = Swish.undefinedMetatags → (parseUndefMetas value).isOk = true) ∧
      (key = Swish.undefinedXmlAttributes → (parseUndefAttrs value).isOk = true))
    ⟨fun h => ⟨fun hkey => isOk_iff.mp (h.1 hkey), fun hkey => isOk_iff.mp (h.2 hkey)⟩,
      fun h => ⟨fun hkey => isOk_iff.mpr (h.undefMetas hkey),
        fun hkey => isOk_iff.mpr (h.undefAttrs hkey)⟩⟩

instance (key value : XmlStr) : Decidable (MiscReads key value) :=
  decidable_of_iff (ModeKnown key value ∧ EntryName key ∧ key ≠ Swish.classAttributes ∧
      strAllWs value = false)
    ⟨fun h => ⟨h.1, h.2.1, h.2.2.1, h.2.2.2⟩,
      fun h => ⟨h.toModeKnown, h.entry, h.ne_class, h.not_blank⟩⟩

/-- None of the default types is written. -/
theorem each_restrict_mimeDefaults {Q : XmlStr → XmlStr → Prop} :
    Each Q (restrict writesMime mimeDefaults) := by
  intro k v hk
  obtain ⟨hlook, hwrites⟩ := lookup_restrict_eq_some_iff.mp hk
  simp [writesMime, hlook, mem_of_lookup hlook] at hwrites

/-- The default types leave their part empty. -/
theorem headerParts_defaultMimes (libVersion : XmlStr) {c : Config}
    (hmimes : c.mimes = mimeDefaults) :
    headerParts libVersion c = headerParts libVersion { c with mimes := ∅ } := by
  have hdefault : (restrict writesMime c.mimes).entries = [] := by
    rw [hmimes, List.eq_nil_iff_forall_not_mem]
    intro e he
    exact each_restrict_mimeDefaults (Q := fun _ _ => False) e.1 e.2 (mem_entries_iff.mp he)
  have hempty : (restrict writesMime (∅ : HashTable XmlStr)).entries = [] := rfl
  simp only [headerParts, hdefault, hempty]
  rfl

/-- What can be computed of `EntriesRead`: all but the types. -/
def EntriesReadButMimes (loc : Locale) (c : Config) : Prop :=
  Each (MetanameReads loc) c.metanames ∧ Each (PropertyReads loc) c.properties ∧
    Each (fun k v => EntryName v ∧ v ≠ [] ∧ WordReads loc k) c.parsers ∧
    Each (fun k v => EntryName v ∧ v ≠ [] ∧ WordReads loc k) c.tagAliases ∧
    Each (fun k v => EntryName k ∧ k ≠ [] ∧ strAllWs v = false) c.index ∧
    Each (fun k v => MiscReads k v ∧ k ≠ []) c.misc

instance (loc : Locale) (c : Config) : Decidable (EntriesReadButMimes loc c) :=
  inferInstanceAs (Decidable (_ ∧ _))

theorem EntriesReadButMimes.entriesRead {loc : Locale} {c : Config}
    (h : EntriesReadButMimes loc c) (hmimes : c.mimes = mimeDefaults) : EntriesRead loc c := by
  obtain ⟨hmetas, hprops, hparsers, haliases, hindex, hmisc⟩ := h
  exact ⟨hmetas, hprops, hparsers, haliases, hindex, hmimes ▸ each_restrict_mimeDefaults, hmisc⟩

end Decidable

section Written

variable {env : HeaderEnv} {mergeFile : XmlStr → Config → Swish Config} {h h₁ h' : Headmaker}
  {part : Option Section} {c c' : Config} {loc : Locale} {libVersion lcCtype : XmlStr}
  {piece nodes : List Node} {pieces more : List (List Node)} {name : XmlStr} {m : MetaName}
  {prop : Property}

theorem EntriesRead.rereadable (h : EntriesRead loc c) (hids : UniqueIds c) : Rereadable loc c :=
  ⟨h, hids.metanames, hids.properties⟩

theorem EntriesRead.modes (h : EntriesRead loc c) : Each ModeKnown c.misc :=
  fun k v hk => (h.misc k v hk).1.toModeKnown

/-! ## Reading piece by piece -/

/-- The first piece is read, whatever blank text stands in front of it. -/
theorem Indents.run_cons (hindents : Indents (piece :: pieces) nodes) (hat : At part c h)
    (hrun : run (readNode env mergeFile) h nodes = .ok h') :
    ∃ h₁ nodes', run (readNode env mergeFile) h piece = .ok h₁ ∧ Indents pieces nodes' ∧
      run (readNode env mergeFile) h₁ nodes' = .ok h' := by
  generalize hpieces : piece :: pieces = all at hindents
  induction hindents with
  | nil => cases hpieces
  | blank hnode _ ih =>
      rw [run_cons_of_ok (readNode_indent hnode hat.awaiting hat.isValid)] at hrun
      exact ih hrun hpieces
  | piece piece' hrest _ =>
      cases hpieces
      obtain ⟨h₁, hpiece, hrun⟩ := run_append_ok_iff.mp hrun
      exact ⟨h₁, _, hpiece, hrest, hrun⟩

/-- The pieces that can be read are, and what is behind them is read afterwards. -/
theorem Reads.run_rest (hreads : Reads env mergeFile h pieces h₁) (hat : At part c h)
    (hindents : Indents (pieces ++ more) nodes)
    (hrun : run (readNode env mergeFile) h nodes = .ok h') :
    ∃ nodes', Indents more nodes' ∧ run (readNode env mergeFile) h₁ nodes' = .ok h' := by
  induction hreads generalizing nodes part c with
  | nil => exact ⟨nodes, hindents, hrun⟩
  | cons hread hat₁ _ ih =>
      obtain ⟨h₂, nodes', hpiece, hindents, hrun⟩ := hindents.run_cons hat hrun
      cases hread.symm.trans hpiece
      exact ih hat₁ hindents hrun

/-! ## Ids that are taken -/

/-- A MetaName that is read has an id that was free. -/
theorem metaId_new_of_read (hat : At (some .metas) c h) (hreads : MetanameReads env.loc name m)
    (hrun : run (readNode env mergeFile) h
      (HeaderElement.attributes name (metanameAttrs m)).nodes = .ok h') :
    intToString m.id ∉ c.flags.metaIds := by
  have hentry : ∀ node, processEntry env node h = readMetaname env node h := by
    intro node
    rw [processEntry, hat.inSection]
  rw [HeaderElement.nodes, run_singleton, readNode_startNode hat hreads.entry, hentry,
    readMetaname] at hrun
  simp only [startNode, hreads.lower, ok_bind, attrsRead_plain, reduceCtorEq, if_false] at hrun
  obtain ⟨⟨h₁, m₁⟩, hattrs, -⟩ := bind_ok_iff.mp hrun
  rw [metanameAttrs, List.map_cons] at hattrs
  obtain ⟨s, hid, -⟩ := run_cons_ok_iff.mp hattrs
  rw [readMetanameAttr, hat.config] at hid
  simp only [if_neg (show lit "id" ≠ lit "bias" by decide), if_true] at hid
  rw [← AList.lookup_eq_none]
  cases hlook : c.flags.metaIds.lookup (intToString m.id) with
  | none => rfl
  | some dupe => rw [hlook] at hid; cases hid

/-- A Property that is read has an id that was free. -/
theorem propId_new_of_read (hat : At (some .props) c h)
    (hreads : PropertyReads env.loc name prop)
    (hrun : run (readNode env mergeFile) h
      (HeaderElement.attributes name (propertyAttrs prop)).nodes = .ok h') :
    intToString prop.id ∉ c.flags.propIds := by
  have hentry : ∀ node, processEntry env node h = readProperty env node h := by
    intro node
    rw [processEntry, hat.inSection]
  rw [HeaderElement.nodes, run_singleton, readNode_startNode hat hreads.entry, hentry,
    readProperty] at hrun
  simp only [startNode, hreads.lower, ok_bind, attrsRead_plain, reduceCtorEq, if_false] at hrun
  obtain ⟨⟨h₁, p₁⟩, hattrs, -⟩ := bind_ok_iff.mp hrun
  rw [propertyAttrs, List.map_cons] at hattrs
  obtain ⟨s, hid, -⟩ := run_cons_ok_iff.mp hattrs
  rw [readPropertyAttr, hat.config] at hid
  simp only [if_neg (show lit "id" ≠ lit "ignore_case" by decide),
    if_neg (show lit "id" ≠ lit "max" by decide),
    if_neg (show lit "id" ≠ lit "verbatim" by decide),
    if_neg (show lit "id" ≠ lit "sort" by decide),
    if_neg (show lit "id" ≠ lit "presort" by decide),
    if_neg (show lit "id" ≠ lit "sort_length" by decide), if_true] at hid
  rw [← AList.lookup_eq_none]
  cases hlook : c.flags.propIds.lookup (intToString prop.id) with
  | none => rfl
  | some dupe => rw [hlook] at hid; cases hid

section Entries

variable {α : Type} {id : α → Int} {w : (Sigma fun _ : XmlStr => α) → HeaderElement}
  {f : Config → (Sigma fun _ : XmlStr => α) → Config} {Q : (Sigma fun _ : XmlStr => α) → Prop}
  {es : List (Sigma fun _ : XmlStr => α)}

/-- Entries that are read one after the other are fresh: each claims its id, which has to be free
for that. -/
theorem freshEntries_of_run (table : Config → HashTable α) (ids : Config → HashTable XmlStr)
    (hnew : ∀ c h h' e, At part c h → Q e → run (readNode env mergeFile) h (w e).nodes = .ok h' →
      intToString (id e.2) ∉ ids c)
    (hread : ∀ c h e, At part c h → Q e → e.1 ∉ table c → intToString (id e.2) ∉ ids c →
      ∃ h', run (readNode env mergeFile) h (w e).nodes = .ok h' ∧ At part (f c e) h')
    (htable : ∀ c e, ∃ a, table (f c e) = (table c).insert e.1 a)
    (hids : ∀ c e, Q e → ∃ name, ids (f c e) = (ids c).insert (intToString (id e.2)) name)
    (hat : At part c h) (hQ : ∀ e ∈ es, Q e) (hnames : ∀ e ∈ es, e.1 ∉ table c)
    (hdistinct : es.Pairwise fun e g => e.1 ≠ g.1)
    (hindents : Indents ((es.map w).map HeaderElement.nodes ++ more) nodes)
    (hrun : run (readNode env mergeFile) h nodes = .ok h') :
    FreshEntries id (table c) (ids c) es := by
  induction es generalizing c h nodes with
  | nil => exact ⟨by simp, by simp, .nil⟩
  | cons e es ih =>
      obtain ⟨hfirst, hrest⟩ := List.pairwise_cons.mp hdistinct
      obtain ⟨h₁, nodes', hpiece, hindents, hrun⟩ := hindents.run_cons hat hrun
      have hQe := hQ e List.mem_cons_self
      have hid := hnew c h h₁ e hat hQe hpiece
      obtain ⟨h₂, hpiece', hat₁⟩ := hread c h e hat hQe (hnames e List.mem_cons_self) hid
      cases hpiece.symm.trans hpiece'
      obtain ⟨a, htable'⟩ := htable c e
      obtain ⟨name, hids'⟩ := hids c e hQe
      have hnames' : ∀ g ∈ es, g.1 ∉ table (f c e) := by
        intro g hg hmem
        rw [htable', AList.mem_insert] at hmem
        rcases hmem with heq | hmem
        · exact hfirst g hg heq.symm
        · exact hnames g (List.mem_cons_of_mem e hg) hmem
      have htail := ih hat₁ (fun g hg => hQ g (List.mem_cons_of_mem e hg)) hnames' hrest hindents
        hrun
      rw [hids'] at htail
      have hfree : ∀ g ∈ es, id g.2 ≠ id e.2 ∧ intToString (id g.2) ∉ ids c := by
        intro g hg
        have hnot := htail.id_new g hg
        rw [AList.mem_insert, not_or, intToString_inj] at hnot
        exact hnot
      refine ⟨hnames, ?_, List.pairwise_cons.mpr ⟨fun g hg => ?_, htail.distinct⟩⟩
      · intro g hg
        rcases List.mem_cons.mp hg with rfl | hg
        · exact hid
        · exact (hfree g hg).2
      · exact ⟨hfirst g hg, fun heq => (hfree g hg).1 heq.symm⟩

theorem distinctOn_of_freshEntries {t : HashTable α} {taken : HashTable α}
    {takenIds : HashTable XmlStr} (h : FreshEntries id taken takenIds t.entries) :
    DistinctOn id t := by
  intro k k' a a' hk hk' heq
  by_contra hne
  have : Std.Symm fun e g : Sigma fun _ : XmlStr => α => e.1 ≠ g.1 ∧ id e.2 ≠ id g.2 :=
    ⟨fun e g hpair => ⟨hpair.1.symm, hpair.2.symm⟩⟩
  have hpair := h.distinct.forall (mem_entries_iff.mpr hk) (mem_entries_iff.mpr hk')
    fun hsame => hne (congrArg Sigma.fst hsame)
  exact hpair.2 heq

end Entries

/-! ## A document -/

theorem pieces_part (name : XmlStr) (elements : List HeaderElement) :
    ∃ tail, (HeaderPart.part name elements).pieces =
      [startNode name []] :: (elements.map HeaderElement.nodes ++ tail) := by
  cases elements with
  | nil => exact ⟨[], rfl⟩
  | cons first rest => exact ⟨[[endNode name]], rfl⟩

/-- Behind the start of a section its entries are read. -/
theorem run_part {s : Section} {elements : List HeaderElement} (hat : At part c h)
    (hsection : sectionOf name = some s)
    (hindents : Indents ((HeaderPart.part name elements).pieces ++ more) nodes)
    (hrun : run (readNode env mergeFile) h nodes = .ok h') :
    ∃ h₁ more' nodes', At (some s) c h₁ ∧
      Indents (elements.map HeaderElement.nodes ++ more') nodes' ∧
      run (readNode env mergeFile) h₁ nodes' = .ok h' := by
  obtain ⟨tail, hpieces⟩ := pieces_part name elements
  rw [hpieces, List.cons_append, List.append_assoc] at hindents
  obtain ⟨h₁, nodes', hpiece, hindents, hrun⟩ := hindents.run_cons hat hrun
  obtain ⟨h₂, hstart, hat₂⟩ : ∃ h₂, readNode env mergeFile h (startNode name []) = .ok h₂ ∧
      At (some s) c h₂ := readNode_sectionStart hat hsection
  cases (run_singleton.symm.trans hpiece).symm.trans hstart
  exact ⟨h₁, tail ++ more, nodes', hat₂, hindents, hrun⟩

/-- No two MetaNames and no two Properties of a document that is read have one id. -/
theorem uniqueIds_of_read (hat : At none configInit h) (hentries : EntriesRead env.loc c)
    (hversion : strAllWs libVersion = false)
    (hindents : Indents ((headerParts libVersion c).flatMap HeaderPart.pieces ++
      [[endNode Swish.headerRoot]]) nodes)
    (hrun : run (readNode env mergeFile) h nodes = .ok h') : UniqueIds c := by
  have hkeys : ∀ {α : Type} (t : HashTable α), t.entries.Pairwise fun e g => e.1 ≠ g.1 :=
    fun t => List.pairwise_map.mp t.nodupKeys
  simp only [headerParts, List.flatMap_append, pieces_elements, List.flatMap_cons,
    List.flatMap_nil, List.append_nil, List.append_assoc] at hindents
  have hcomment := reads_comment env mergeFile hat (lit "written by libswish3 - DO NOT EDIT")
  obtain ⟨nodes₁, hindents, hrun⟩ := hcomment.run_rest hat hindents hrun
  obtain ⟨c₁, h₁, hreads₁, hat₁, hcoming₁⟩ :=
    reads_misc env mergeFile hat (miscReads_versions (c := c) hversion) each_empty
  obtain ⟨⟨misc₁, flags₁, rfl⟩, -, hids₁, -, -⟩ := hcoming₁
  obtain ⟨nodes₂, hindents, hrun⟩ := hreads₁.run_rest hat hindents hrun
  have hmetas : DistinctOn MetaName.id c.metanames := by
    obtain ⟨h₂, more, nodes₃, hat₂, hindents, hrun⟩ :=
      run_part hat₁ (show sectionOf Swish.metaSection = some .metas from rfl) hindents hrun
    refine distinctOn_of_freshEntries (freshEntries_of_run Config.metanames
      (fun c => c.flags.metaIds) (f := fun c (e : Sigma fun _ : XmlStr => MetaName) =>
        c.storeMetaname e.1 (rereadMetaname e.1 e.2))
      (Q := fun e => MetanameReads env.loc e.1 e.2)
      (fun c h h' e hat hreads hrun => metaId_new_of_read hat hreads hrun)
      (fun c h e hat hreads hname hid => read_metaname hat hreads hname hid)
      (fun c e => ⟨_, rfl⟩)
      (fun c e _ => ⟨e.1, ?_⟩) hat₂ (fun e he => hentries.metanames e.1 e.2 (mem_entries_iff.mp he))
      (fun e _ hmem => AList.notMem_empty _ hmem) (hkeys _) hindents hrun)
    rw [← rereadMetaname_id e.1 e.2]
    rfl
  obtain ⟨c₂, h₂, part₂, hreads₂, hat₂, -, metaIds, rfl⟩ := reads_metaPart env mergeFile hat₁
    hentries.metanames hmetas rfl hids₁.metaIds
  obtain ⟨nodes₃, hindents, hrun⟩ := hreads₂.run_rest hat₁ hindents hrun
  refine ⟨hmetas, ?_⟩
  obtain ⟨h₃, more, nodes₄, hat₃, hindents, hrun⟩ :=
    run_part hat₂ (show sectionOf Swish.propSection = some .props from rfl) hindents hrun
  refine distinctOn_of_freshEntries (freshEntries_of_run Config.properties
    (fun c => c.flags.propIds) (f := fun c (e : Sigma fun _ : XmlStr => Property) =>
      c.storeProperty e.1 (rereadProperty e.1 e.2))
    (Q := fun e => PropertyReads env.loc e.1 e.2)
    (fun c h h' e hat hreads hrun => propId_new_of_read hat hreads hrun)
    (fun c h e hat hreads hname hid => read_property hat hreads hname hid)
    (fun c e => ⟨_, rfl⟩)
    (fun c e _ => ⟨e.1, ?_⟩) hat₃ (fun e he => hentries.properties e.1 e.2 (mem_entries_iff.mp he))
    (fun e _ hmem => AList.notMem_empty _ hmem) (hkeys _) hindents hrun)
  rw [← rereadProperty_id e.1 e.2]
  rfl

/-! ## Merging what was written -/

/-- What merging the header of `c` gives. -/
theorem headerMerge_written_ok {filename confFile lcCtype' : XmlStr} {reader : Reader}
    {fuel : Nat} (hfrom : FromDefault (configSetDefault lcCtype) c)
    (hentries : EntriesRead env.loc c) (hversion : strAllWs libVersion = false)
    (hopen : openReader env filename = .ok (confFile, reader))
    (hfile : WrittenFile (headerParts libVersion c) reader)
    (hmerge : headerMerge env fuel filename (configSetDefault lcCtype') = .ok c') :
    UniqueIds c ∧ Restored c' c := by
  obtain ⟨config, hread, hmerged, -, -⟩ := headerMerge_ok hmerge
  obtain ⟨body, hnodes, hindents⟩ := hfile.nodes
  have hids : UniqueIds c := by
    rw [headerRead, readHeader, hopen, ok_bind] at hread
    obtain ⟨h', hrun, -⟩ := bind_ok_iff.mp hread
    rw [hnodes] at hrun
    obtain ⟨h₀, hroot, hrun⟩ := run_cons_ok_iff.mp hrun
    have hvalid : h₀ = { initHeadmaker env confFile with isValid := true } := by
      cases hroot
      rfl
    have hat₀ : At none configInit h₀ := by
      rw [hvalid]
      exact ⟨rfl, rfl, rfl, rfl⟩
    exact uniqueIds_of_read hat₀ hentries hversion hindents hrun
  obtain ⟨config', hread', hfromRead⟩ := readHeader_reread (headerMerge env (fuel - 1))
    (hentries.rereadable hids) hversion hfrom.closed hopen hfile
  cases hread.symm.trans hread'
  exact ⟨hids, restored_of_reread hfrom hfromRead (flagsIdle_headerRead hread) hmerged⟩

/-- The file that is written for a config is merged into a default one exactly if the ids of the
config are distinct. -/
theorem headerMerge_written_iff {filename confFile : XmlStr} {reader : Reader} (fuel : Nat)
    (lcCtype' : XmlStr) (hfrom : FromDefault (configSetDefault lcCtype) c)
    (hentries : EntriesRead env.loc c) (hversion : strAllWs libVersion = false)
    (hopen : openReader env filename = .ok (confFile, reader))
    (hfile : WrittenFile (headerParts libVersion c) reader) :
    (∃ c', headerMerge env (fuel + 1) filename (configSetDefault lcCtype') = .ok c') ↔
      UniqueIds c := by
  constructor
  · rintro ⟨c', hmerge⟩
    exact (headerMerge_written_ok hfrom hentries hversion hopen hfile hmerge).1
  · intro hids
    obtain ⟨config, hread, hfromRead⟩ := readHeader_reread (headerMerge env fuel)
      (hentries.rereadable hids) hversion hfrom.closed hopen hfile
    have hmisc : ∀ k, ¬ IsVersionKey k → config.misc.lookup k = c.misc.lookup k := by
      intro k hk
      rw [hfromRead.misc, lookup_misc_reread hk]
    obtain ⟨c', hmerged⟩ : ∃ c', configMerge (configSetDefault lcCtype') config = .ok c' :=
      configMerge_returns_iff.mpr (knownModes_reread hentries.modes hmisc)
    have hrestored := restored_of_reread hfrom hfromRead (flagsIdle_headerRead hread) hmerged
    have hfree : configFree (configSetDefault lcCtype') config = .ok () :=
      configFree_of_unshared fun key hkey => by
        rw [hfromRead.stringlists] at hkey
        exact absurd hkey (AList.notMem_empty key)
    have htest : configTestAliasFors c' = .ok () :=
      configTestAliasFors_restored hrestored.metanames hrestored.properties hfrom.tested
    refine ⟨c', ?_⟩
    rw [headerMerge, hread, ok_bind, hmerged, ok_bind, hfree, ok_bind, htest]
    rfl

theorem entriesRead_libraryConfig : EntriesRead .posix libraryConfig :=
  (legible_libraryConfig.rereadable
    (mergeFiles_soundTables Locale.posix_asciiAgrees Locale.posix_lowers mergeFiles_library)
    (mergeFiles_fromDefault mergeFiles_library)).toEntriesRead

theorem headerMerge_written_library :
    (∃ c', headerMerge (HeaderEnv.oneFile (writtenReader (headerParts (lit "3.0.0")
        libraryConfig))) 1 [] (configSetDefault (lit "C")) = .ok c') ↔ UniqueIds libraryConfig :=
  headerMerge_written_iff 0 (lit "C") (mergeFiles_fromDefault mergeFiles_library)
    entriesRead_libraryConfig (by decide) rfl (writtenFile_writtenReader _)

end Written

end LibSwish3
