import LibSwish3.HeaderPieces

/-!
# Reading the entries of a written header

Each kind of entry is read back into the table it was written from: a name with attributes into
`metanames` or `properties`, an element with a text into one of the others.  What an entry has to
be like for that is `MetanameReads` and `PropertyReads` for names, and a few hypotheses for the
rest.

## Main definitions

* `metanameAttrs`, `propertyAttrs` — the attributes of a name.
* `rereadMetaname`, `rereadProperty` — what is read back.
* `read_metaname`, `read_property`, `read_value`, `read_values`, `read_misc`.
-/

namespace LibSwish3

open Runs Tables

/-! ## Names with attributes -/

/-- The attributes `write_metaname` writes. -/
def metanameAttrs (m : MetaName) : List (XmlStr × XmlStr) :=
  (lit "id", intToString m.id) ::
    match m.aliasFor with
    | .live target => [(lit "alias_for", target)]
    | .null | .freed => [(lit "bias", intToString m.bias)]

/-- The attributes `write_property` writes. -/
def propertyAttrs (prop : Property) : List (XmlStr × XmlStr) :=
  (lit "id", intToString prop.id) ::
    match prop.aliasFor with
    | .live target => [(lit "alias_for", target)]
    | .null | .freed =>
      [(lit "ignore_case", boolToString prop.ignoreCase),
        (lit "verbatim", boolToString prop.verbatim),
        (lit "type", intToString prop.type),
        (lit "max", intToString (toInt prop.max)),
        (lit "sort", boolToString prop.sort),
        (lit "sort_length", intToString (toInt prop.sortLength)),
        (lit "presort", boolToString prop.presort)]

/-- A MetaName that is written so that it can be read back. -/
structure MetanameReads (loc : Locale) (name : XmlStr) (m : MetaName) : Prop where
  entry : EntryName name
  not_empty : name ≠ []
  lower : strTolower loc name = .ok name
  id : IsInt m.id
  id_ne : m.id ≠ -1
  bias : IsInt m.bias
  target : ∀ target, m.aliasFor = .live target → strTolower loc target = .ok target
  not_freed : m.aliasFor ≠ .freed

/-- A Property that is written so that it can be read back.  A type is a number that begins with
a digit. -/
structure PropertyReads (loc : Locale) (name : XmlStr) (prop : Property) : Prop where
  entry : EntryName name
  not_empty : name ≠ []
  lower : strTolower loc name = .ok name
  id : IsInt prop.id
  id_ne : prop.id ≠ -1
  type : prop.aliasFor = .null → IsInt prop.type ∧ 0 ≤ prop.type
  max : prop.max < 2 ^ 32
  sortLength : prop.sortLength < 2 ^ 32
  target : ∀ target, prop.aliasFor = .live target → strTolower loc target = .ok target
  not_freed : prop.aliasFor ≠ .freed

/-- A word that is written into a list so that it can be read back. -/
structure WordReads (loc : Locale) (word : XmlStr) : Prop where
  lower : strTolower loc word = .ok word
  alone : stringlistBuild word = .ok [word]

/-- What is read back under a name; an alias has no bias. -/
def rereadMetaname (name : XmlStr) (m : MetaName) : MetaName :=
  match m.aliasFor with
  | .live target => { metanameInit name with id := m.id, aliasFor := .live target }
  | .null | .freed => { m with name }

/-- What is read back under a name; an alias has the attributes of a fresh Property. -/
def rereadProperty (name : XmlStr) (prop : Property) : Property :=
  match prop.aliasFor with
  | .live target => { propertyInit name with id := prop.id, aliasFor := .live target }
  | .null | .freed => { prop with name }

@[simp] theorem rereadMetaname_id (name : XmlStr) (m : MetaName) :
    (rereadMetaname name m).id = m.id := by
  rw [rereadMetaname]
  split <;> rfl

@[simp] theorem rereadMetaname_name (name : XmlStr) (m : MetaName) :
    (rereadMetaname name m).name = name := by
  rw [rereadMetaname]
  split <;> rfl

theorem rereadMetaname_live {name target : XmlStr} {m : MetaName}
    (h : m.aliasFor = .live target) : rereadMetaname name m =
      { metanameInit name with id := m.id, aliasFor := .live target } := by
  rw [rereadMetaname, h]

theorem rereadMetaname_null {name : XmlStr} {m : MetaName} (h : m.aliasFor = .null) :
    rereadMetaname name m = { m with name, aliasFor := .null } := by
  rw [rereadMetaname, h]

@[simp] theorem rereadProperty_id (name : XmlStr) (prop : Property) :
    (rereadProperty name prop).id = prop.id := by
  rw [rereadProperty]
  split <;> rfl

@[simp] theorem rereadProperty_name (name : XmlStr) (prop : Property) :
    (rereadProperty name prop).name = name := by
  rw [rereadProperty]
  split <;> rfl

theorem rereadProperty_live {name target : XmlStr} {prop : Property}
    (h : prop.aliasFor = .live target) : rereadProperty name prop =
      { propertyInit name with id := prop.id, aliasFor := .live target } := by
  rw [rereadProperty, h]

theorem rereadProperty_null {name : XmlStr} {prop : Property} (h : prop.aliasFor = .null) :
    rereadProperty name prop = { prop with name, aliasFor := .null } := by
  rw [rereadProperty, h]

/-- A line of blanks has no words. -/
theorem lineWords_of_blank {line : XmlStr} (h : strAllWs line = true) :
    lineWords line = [] := by
  have hskip : strSkipWs (line.takeWhile (· ≠ 10)) = [] := by
    rw [strSkipWs, List.dropWhile_eq_nil_iff]
    exact fun c hc => List.all_eq_true.mp h c ((List.takeWhile_sublist _).subset hc)
  simp only [lineWords, lineWordsFrom, lineWord, hskip]

theorem WordReads.not_blank {loc : Locale} {word : XmlStr} (h : WordReads loc word) :
    strAllWs word = false := by
  by_contra hblank
  rw [Bool.not_eq_false] at hblank
  have hnil := lineWords_of_blank hblank
  rw [(stringlistBuild_ok_iff.mp h.alone).1] at hnil
  cases hnil

theorem writeOpenTag_ok {name : XmlStr} (h : name ≠ []) : writeOpenTag name = .ok () := by
  rw [writeOpenTag, if_neg h]

theorem writeMetaname_ok {loc : Locale} {name : XmlStr} {m : MetaName}
    (h : MetanameReads loc name m) :
    writeMetaname m name = .ok (.attributes name (metanameAttrs m)) := by
  rw [writeMetaname, writeOpenTag_ok h.not_empty, metanameAttrs]
  cases halias : m.aliasFor with
  | null => rfl
  | live target => rfl
  | freed => exact absurd halias h.not_freed

theorem writeProperty_ok {loc : Locale} {name : XmlStr} {prop : Property}
    (h : PropertyReads loc name prop) :
    writeProperty prop name = .ok (.attributes name (propertyAttrs prop)) := by
  rw [writeProperty, writeOpenTag_ok h.not_empty, propertyAttrs]
  cases halias : prop.aliasFor with
  | null => rfl
  | live target => rfl
  | freed => exact absurd halias h.not_freed

/-! ## Where the entries stand -/

/-- The sections whose elements have one value each. -/
def ValueTable.part : ValueTable → Option Section
  | .index => some .index
  | .mimes => some .mime
  | .misc => none

/-- The sections whose elements have a list of words each. -/
def ValuesTable.part : ValuesTable → Option Section
  | .parsers => some .parser
  | .tagAliases => some .aliases

section Entries

variable {env : HeaderEnv} {mergeFile : XmlStr → Config → Swish Config} {h h₁ h' : Headmaker}
  {part : Option Section} {c c' : Config} {name text : XmlStr} {m : MetaName} {prop : Property}

/-- No attribute of a written element is a namespace declaration. -/
theorem attrsRead_plain (attrs : List (XmlStr × XmlStr)) :
    attrsRead (attrs.map fun p => ⟨none, p.1, p.2⟩) = attrs.map fun p => ⟨none, p.1, p.2⟩ := by
  cases attrs with
  | nil => rfl
  | cons p attrs =>
      have hrest : ∀ attr ∈ attrs.map fun p => (⟨none, p.1, p.2⟩ : Attr), !attr.isXmlns := by
        intro attr hattr
        obtain ⟨p, -, rfl⟩ := List.mem_map.mp hattr
        rfl
      have hfirst : (⟨none, p.1, p.2⟩ : Attr).isXmlns = false := rfl
      rw [List.map_cons, attrsRead, hfirst]
      simp only [Bool.false_eq_true, if_false, List.take_succ_cons, List.take_zero,
        List.drop_succ_cons, List.drop_zero, List.singleton_append]
      rw [List.takeWhile_eq_self_iff.mpr hrest]

/-- Reading the id of a MetaName. -/
theorem readMetanameAttr_id {v : Int} (hv : IsInt v)
    (hnew : intToString v ∉ h.config.flags.metaIds) :
    readMetanameAttr env (h, m) ⟨none, lit "id", intToString v⟩ =
      .ok ({ h with config := { h.config with flags := { h.config.flags with
        metaIds := h.config.flags.metaIds.insert (intToString v) m.name } } },
        { m with id := v }) := by
  have hlook := AList.lookup_eq_none.mpr hnew
  rw [readMetanameAttr]
  simp only [if_neg (show lit "id" ≠ lit "bias" by decide), if_true, hlook,
    stringToInt_intToString hv, hashAdd, if_neg hnew]
  rfl

theorem readMetanameAttr_bias {v : Int} (hv : IsInt v) :
    readMetanameAttr env (h, m) ⟨none, lit "bias", intToString v⟩ =
      .ok (h, { m with bias := v }) := by
  rw [readMetanameAttr]
  simp only [if_true, stringToInt_intToString hv]
  rfl

theorem readMetanameAttr_aliasFor {target : XmlStr}
    (htarget : strTolower env.loc target = .ok target) :
    readMetanameAttr env (h, m) ⟨none, lit "alias_for", target⟩ =
      .ok (h, { m with aliasFor := .live target }) := by
  rw [readMetanameAttr]
  simp only [if_neg (show lit "alias_for" ≠ lit "bias" by decide),
    if_neg (show lit "alias_for" ≠ lit "id" by decide), if_true, htarget]
  rfl

/-- The config knows who has an id. -/
def Config.claimMetaId (c : Config) (v : Int) (name : XmlStr) : Config :=
  { c with flags := { c.flags with metaIds := c.flags.metaIds.insert (intToString v) name } }

theorem run_readMetanameAttr (hreads : MetanameReads env.loc name m)
    (hid : intToString m.id ∉ h.config.flags.metaIds) :
    run (readMetanameAttr env) (h, metanameInit name)
        ((metanameAttrs m).map fun p => ⟨none, p.1, p.2⟩) =
      .ok ({ h with config := h.config.claimMetaId m.id name }, rereadMetaname name m) := by
  rw [metanameAttrs, List.map_cons, run_cons_of_ok (readMetanameAttr_id hreads.id hid)]
  cases halias : m.aliasFor with
  | null =>
      rw [List.map_singleton, run_singleton, readMetanameAttr_bias hreads.bias,
        rereadMetaname_null halias]
      rfl
  | live target =>
      rw [List.map_singleton, run_singleton,
        readMetanameAttr_aliasFor (hreads.target target halias), rereadMetaname_live halias]
      rfl
  | freed => exact absurd halias hreads.not_freed

/-- A MetaName and its id are stored. -/
def Config.storeMetaname (c : Config) (name : XmlStr) (m : MetaName) : Config :=
  { c.claimMetaId m.id name with metanames := c.metanames.insert name m }

/-- A written MetaName is read back, where its name and its id are new. -/
theorem read_metaname (hat : At (some .metas) c h) (hreads : MetanameReads env.loc name m)
    (hnew : name ∉ c.metanames) (hid : intToString m.id ∉ c.flags.metaIds) :
    ∃ h', run (readNode env mergeFile) h (HeaderElement.attributes name (metanameAttrs m)).nodes =
        .ok h' ∧
      At (some .metas) (c.storeMetaname name (rereadMetaname name m)) h' := by
  obtain ⟨hawait, hvalid, hsection, rfl⟩ := hat
  have hat : At (some .metas) h.config h := ⟨hawait, hvalid, hsection, rfl⟩
  refine ⟨{ h with
    config := h.config.storeMetaname name (rereadMetaname name m), parentName := some name },
    ?_, hawait, hvalid, hsection, rfl⟩
  have hassign : ∀ k : Headmaker,
      k.assignMetaId (rereadMetaname name m) = (k, rereadMetaname name m) := by
    intro k
    rw [Headmaker.assignMetaId, if_neg (by rw [rereadMetaname_id]; exact hreads.id_ne)]
  have hadd : ({ h with config := h.config.claimMetaId m.id name } : Headmaker).addMetaname
      (rereadMetaname name m) =
      { h with config := h.config.storeMetaname name (rereadMetaname name m) } := by
    rw [Headmaker.addMetaname, rereadMetaname_name, if_neg]
    · rw [Config.storeMetaname, rereadMetaname_id]
      rfl
    · exact hnew
  have hentry : ∀ node, processEntry env node h = readMetaname env node h := by
    intro node
    rw [processEntry, hsection]
  rw [HeaderElement.nodes, run_singleton, readNode_startNode hat hreads.entry, hentry]
  simp only [readMetaname, startNode, hreads.lower, ok_bind, attrsRead_plain,
    run_readMetanameAttr hreads hid, reduceCtorEq, if_false, hassign, hadd]
  rfl

/-! ## Properties -/

theorem readPropertyAttr_id {v : Int} (hv : IsInt v)
    (hnew : intToString v ∉ h.config.flags.propIds) :
    readPropertyAttr env (h, prop) ⟨none, lit "id", intToString v⟩ =
      .ok ({ h with config := { h.config with flags := { h.config.flags with
        propIds := h.config.flags.propIds.insert (intToString v) prop.name } } },
        { prop with id := v }) := by
  have hlook := AList.lookup_eq_none.mpr hnew
  rw [readPropertyAttr]
  simp only [if_neg (show lit "id" ≠ lit "ignore_case" by decide),
    if_neg (show lit "id" ≠ lit "max" by decide),
    if_neg (show lit "id" ≠ lit "verbatim" by decide),
    if_neg (show lit "id" ≠ lit "sort" by decide),
    if_neg (show lit "id" ≠ lit "presort" by decide),
    if_neg (show lit "id" ≠ lit "sort_length" by decide), if_true, hlook,
    stringToInt_intToString hv, hashAdd, if_neg hnew]
  rfl

/-- The flags of a Property. -/
theorem readPropertyAttr_boolean (b : Bool) :
    readPropertyAttr env (h, prop) ⟨none, lit "ignore_case", boolToString b⟩ =
        .ok (h, { prop with ignoreCase := b }) ∧
      readPropertyAttr env (h, prop) ⟨none, lit "verbatim", boolToString b⟩ =
        .ok (h, { prop with verbatim := b }) ∧
      readPropertyAttr env (h, prop) ⟨none, lit "sort", boolToString b⟩ =
        .ok (h, { prop with sort := b }) ∧
      readPropertyAttr env (h, prop) ⟨none, lit "presort", boolToString b⟩ =
        .ok (h, { prop with presort := b }) := by
  cases b <;> exact ⟨rfl, rfl, rfl, rfl⟩

/-- The sizes of a Property: they are unsigned, and signed only while they are text. -/
theorem readPropertyAttr_size {n : Nat} (hn : n < 2 ^ 32) :
    readPropertyAttr env (h, prop) ⟨none, lit "max", intToString (toInt n)⟩ =
        .ok (h, { prop with max := n }) ∧
      readPropertyAttr env (h, prop) ⟨none, lit "sort_length", intToString (toInt n)⟩ =
        .ok (h, { prop with sortLength := n }) := by
  have hmax : ∀ s, readPropertyAttr env (h, prop) ⟨none, lit "max", s⟩ =
      (do pure (h, { prop with max := toUInt (← stringToInt s) })) := fun _ => rfl
  have hlength : ∀ s, readPropertyAttr env (h, prop) ⟨none, lit "sort_length", s⟩ =
      (do pure (h, { prop with sortLength := toUInt (← stringToInt s) })) := fun _ => rfl
  rw [hmax, hlength, stringToInt_intToString (isInt_toInt n), ok_bind, ok_bind, toUInt_toInt hn]
  exact ⟨rfl, rfl⟩

/-- The type is read as a number, unless it is negative. -/
theorem readPropertyType_intToString {v : Int} (hv : IsInt v) (hpos : 0 ≤ v) :
    readPropertyType name (intToString v) = .ok v := by
  have hhead := head?_intToString hpos
  have hword : ∀ s : XmlStr, s.head?.any isdigit = false → intToString v ≠ s := by
    rintro s hs rfl
    rw [hs] at hhead
    cases hhead
  rw [readPropertyType, if_neg (hword _ (by decide)), if_neg (hword _ (by decide)),
    if_neg (not_or_intro (hword _ (by decide)) (hword _ (by decide))), if_pos hhead]
  exact stringToInt_intToString hv

theorem readPropertyAttr_type {v : Int} (hv : IsInt v) (hpos : 0 ≤ v) :
    readPropertyAttr env (h, prop) ⟨none, lit "type", intToString v⟩ =
      .ok (h, { prop with type := v }) := by
  have htype : ∀ s, readPropertyAttr env (h, prop) ⟨none, lit "type", s⟩ =
      (do pure (h, { prop with type := ← readPropertyType prop.name s })) := fun _ => rfl
  rw [htype, readPropertyType_intToString hv hpos]
  rfl

theorem readPropertyAttr_aliasFor {target : XmlStr}
    (htarget : strTolower env.loc target = .ok target) :
    readPropertyAttr env (h, prop) ⟨none, lit "alias_for", target⟩ =
      .ok (h, { prop with aliasFor := .live target }) := by
  have halias : ∀ s, readPropertyAttr env (h, prop) ⟨none, lit "alias_for", s⟩ =
      (do pure (h, { prop with aliasFor := .live (← strTolower env.loc s) })) := fun _ => rfl
  rw [halias, htarget]
  rfl

/-- The config knows who has an id. -/
def Config.claimPropId (c : Config) (v : Int) (name : XmlStr) : Config :=
  { c with flags := { c.flags with propIds := c.flags.propIds.insert (intToString v) name } }

theorem run_readPropertyAttr (hreads : PropertyReads env.loc name prop)
    (hid : intToString prop.id ∉ h.config.flags.propIds) :
    run (readPropertyAttr env) (h, propertyInit name)
        ((propertyAttrs prop).map fun p => ⟨none, p.1, p.2⟩) =
      .ok ({ h with config := h.config.claimPropId prop.id name },
        rereadProperty name prop) := by
  rw [propertyAttrs, List.map_cons, run_cons_of_ok (readPropertyAttr_id hreads.id hid)]
  cases halias : prop.aliasFor with
  | null =>
      obtain ⟨htype, hpos⟩ := hreads.type halias
      simp only [List.map_cons, List.map_nil, propertyInit,
        run_cons_of_ok (readPropertyAttr_boolean _).1,
        run_cons_of_ok (readPropertyAttr_boolean _).2.1,
        run_cons_of_ok (readPropertyAttr_type htype hpos),
        run_cons_of_ok (readPropertyAttr_size hreads.max).1,
        run_cons_of_ok (readPropertyAttr_boolean _).2.2.1,
        run_cons_of_ok (readPropertyAttr_size hreads.sortLength).2,
        run_cons_of_ok (readPropertyAttr_boolean _).2.2.2, run_nil, rereadProperty_null halias]
      rfl
  | live target =>
      rw [List.map_singleton, run_singleton,
        readPropertyAttr_aliasFor (hreads.target target halias), rereadProperty_live halias]
      rfl
  | freed => exact absurd halias hreads.not_freed

/-- A Property and its id are stored. -/
def Config.storeProperty (c : Config) (name : XmlStr) (prop : Property) : Config :=
  { c.claimPropId prop.id name with properties := c.properties.insert name prop }

/-- A written Property is read back, where its name and its id are new. -/
theorem read_property (hat : At (some .props) c h) (hreads : PropertyReads env.loc name prop)
    (hnew : name ∉ c.properties) (hid : intToString prop.id ∉ c.flags.propIds) :
    ∃ h', run (readNode env mergeFile) h
        (HeaderElement.attributes name (propertyAttrs prop)).nodes = .ok h' ∧
      At (some .props) (c.storeProperty name (rereadProperty name prop)) h' := by
  obtain ⟨hawait, hvalid, hsection, rfl⟩ := hat
  have hat : At (some .props) h.config h := ⟨hawait, hvalid, hsection, rfl⟩
  refine ⟨{ h with
    config := h.config.storeProperty name (rereadProperty name prop), parentName := some name },
    ?_, hawait, hvalid, hsection, rfl⟩
  have hassign : ∀ k : Headmaker,
      k.assignPropId (rereadProperty name prop) = (k, rereadProperty name prop) := by
    intro k
    rw [Headmaker.assignPropId, if_neg (by rw [rereadProperty_id]; exact hreads.id_ne)]
  have hadd : ({ h with config := h.config.claimPropId prop.id name } : Headmaker).addProperty
      (rereadProperty name prop) =
      .ok { h with config := h.config.storeProperty name (rereadProperty name prop) } := by
    rw [Headmaker.addProperty, rereadProperty_name, if_neg]
    · rw [Config.storeProperty, rereadProperty_id]
      rfl
    · exact hnew
  have hentry : ∀ node, processEntry env node h = readProperty env node h := by
    intro node
    rw [processEntry, hsection]
  rw [HeaderElement.nodes, run_singleton, readNode_startNode hat hreads.entry, hentry]
  simp only [readProperty, startNode, hreads.lower, ok_bind, attrsRead_plain,
    run_readPropertyAttr hreads hid, reduceCtorEq, if_false, hassign, hadd]
  rfl

/-! ## Elements with a text -/

/-- An element with a text: its start waits for a value, its text is the value, and its end is
skipped. -/
theorem read_content {part' : Option Section} (h₁ : Headmaker) (hat : At part c h)
    (hname : EntryName name) (htext : strAllWs text = false)
    (hstart : processEntry env (startNode name []) h = .ok h₁)
    (hvalue : readNode env mergeFile h₁ (textNode text) = .ok h') (hat' : At part' c' h') :
    run (readNode env mergeFile) h (HeaderElement.content name text).nodes = .ok h' := by
  have hne : text ≠ [] := by
    rintro rfl
    cases htext
  have hnodes : (HeaderElement.content name text).nodes =
      [startNode name [], textNode text, endNode name] := by
    simp [HeaderElement.nodes, textNodes, hne, htext]
  rw [hnodes, run_cons_of_ok ((readNode_startNode hat hname []).trans hstart),
    run_cons_of_ok hvalue, run_singleton, readNode_endNode hat' hname]

/-- A value is stored under the name of its element. -/
theorem read_value {table : ValueTable} (hmisc : table ≠ .misc) (hat : At table.part c h)
    (hname : EntryName name) (htext : strAllWs text = false) :
    ∃ h', run (readNode env mergeFile) h (HeaderElement.content name text).nodes = .ok h' ∧
      At table.part (c.setValue table name text) h' := by
  obtain ⟨hawait, hvalid, hsection, rfl⟩ := hat
  have hat : At table.part h.config h := ⟨hawait, hvalid, hsection, rfl⟩
  have hat' : At table.part (h.config.setValue table name text)
      { h with config := h.config.setValue table name text, awaiting := .node } :=
    ⟨rfl, hvalid, hsection, rfl⟩
  refine ⟨_, read_content { h with awaiting := .value table name } hat hname htext ?_ ?_ hat',
    hat'⟩
  · rw [processEntry, hsection]
    cases table with
    | misc => exact absurd rfl hmisc
    | index | mimes => rfl
  · cases table with
    | misc => exact absurd rfl hmisc
    | index | mimes => rfl

/-- A word that is its own list is stored under itself, with the name of its element. -/
theorem read_values {table : ValuesTable} (hat : At table.part c h) (hname : EntryName name)
    (hword : WordReads env.loc text) :
    ∃ h', run (readNode env mergeFile) h (HeaderElement.content name text).nodes = .ok h' ∧
      At table.part (c.setValues [text] table name) h' := by
  obtain ⟨hawait, hvalid, hsection, rfl⟩ := hat
  have hat : At table.part h.config h := ⟨hawait, hvalid, hsection, rfl⟩
  have hat' : At table.part (h.config.setValues [text] table name)
      { h with config := h.config.setValues [text] table name, awaiting := .node } :=
    ⟨rfl, hvalid, hsection, rfl⟩
  refine ⟨_, read_content { h with awaiting := .values table name } hat hname
    hword.not_blank ?_ ?_ hat', hat'⟩
  · rw [processEntry, hsection]
    cases table <;> rfl
  · simp only [readNode, textNode, if_true, readKeyValuesPair, Node.text, Option.getD_some,
      hword.lower, ok_bind, hword.alone]
    rfl

/-- A directive is stored, and sets its flag. -/
theorem read_misc (hat : At none c h) (hname : EntryName name)
    (hclass : name ≠ Swish.classAttributes) (htext : strAllWs text = false)
    (hflags : handleSpecialMiscFlags (c.setValue .misc name text) = .ok c') :
    ∃ h', run (readNode env mergeFile) h (HeaderElement.content name text).nodes = .ok h' ∧
      At none c' h' := by
  obtain ⟨hawait, hvalid, hsection, rfl⟩ := hat
  have hat : At none h.config h := ⟨hawait, hvalid, hsection, rfl⟩
  have hat' : At none c' { h with config := c', awaiting := .node } :=
    ⟨rfl, hvalid, hsection, rfl⟩
  refine ⟨_, read_content { h with awaiting := .value .misc name } hat hname htext ?_ ?_ hat',
    hat'⟩
  · rw [processEntry, hsection]
    simp only [startNode, Node.localNameOr, Option.getD_some, if_neg hclass, if_true]
  · simp only [readNode, textNode, if_true, readKeyValuePair, Node.text, Option.getD_some, hflags]
    rfl

end Entries

end LibSwish3
