import LibSwish3.Header
import LibSwish3.WordBuffer

/-!
# What reading and merging can do to a config

The reader touches a config in a handful of ways: it stores a MetaName or a Property under
a new name, turns a MetaName into an alias, sets a value, a directive or a word list, and
merges an included file.  `KeptBy` lists them once.  A property of configs that each of
them keeps is kept by `headerMerge`, however the files are nested; that induction is made
here and every later invariant of configs uses it.

Some properties are kept only by stores that meet a condition, for instance that the id is
not taken.  `StoreCond` holds such conditions, and `MergeMeets` says that every store made
while a file is read and merged meets them.

## Main definitions

* `StoreCond`, `MergeMeets` — conditions on the stores of a merge.
* `KeptBy` — the obligations of an invariant.
* `headerMerge_kept` — what the obligations give.
-/

namespace LibSwish3

open Runs Tables

/-! ## Entry names -/

/-- A name that opens no section and is no directive of the reader itself. -/
structure Unreserved (name : XmlStr) : Prop where
  ne_root : name ≠ Swish.headerRoot
  ne_include : name ≠ Swish.includeFile
  no_section : sectionOf name = none

/-- The pending call stores under an entry's name. -/
def Awaiting.Named : Awaiting → Prop
  | .value table name => Unreserved name ∧ (table = .misc → name ≠ Swish.classAttributes)
  | .values _ name => Unreserved name
  | .node | .stringlist _ | .includeFile => True

theorem unreserved_of_entry {isValid : Bool} {node : Node}
    (h : nodeKind isValid node = .entry) : Unreserved node.localNameOr := by
  simp only [nodeKind] at h
  split at h
  · cases h
  split at h
  · cases h
  rename_i hroot
  split at h
  · cases h
  split at h
  · cases h
  split at h
  · split at h <;> cases h
  split at h
  · cases h
  rename_i hinclude
  split at h
  · cases h
  · rename_i hsection
    exact ⟨hroot, hinclude, hsection⟩

/-! ## Numbers -/

theorem stringToInt_ok {s : XmlStr} {v : Int} (h : stringToInt s = .ok v) :
    ∃ i, v = toInt i := by
  simp only [stringToInt] at h
  split at h
  · cases h
  · cases h
    exact ⟨_, rfl⟩

theorem readPropertyType_ok {name value : XmlStr} {v : Int}
    (h : readPropertyType name value = .ok v) : ∃ i, v = toInt i := by
  simp only [readPropertyType] at h
  split at h
  · cases h
    exact ⟨Swish.propInt, rfl⟩
  split at h
  · cases h
    exact ⟨Swish.propDate, rfl⟩
  split at h
  · cases h
    exact ⟨Swish.propString, rfl⟩
  split at h
  · exact stringToInt_ok h
  · cases h

/-! ## What an attribute does -/

theorem readMetanameAttr_cases {env : HeaderEnv} {h : Headmaker} {m : MetaName} {attr : Attr}
    {s : Headmaker × MetaName} (hok : readMetanameAttr env (h, m) attr = .ok s) :
    (∃ v, s = (h, { m with bias := toInt v })) ∨
      (∃ v metaIds, s = ({ h with config := { h.config with
          flags := { h.config.flags with metaIds } } }, { m with id := toInt v })) ∨
      ∃ name, strTolower env.loc attr.value = .ok name ∧
        s = (h, { m with aliasFor := .live name }) := by
  simp only [readMetanameAttr] at hok
  by_cases hbias : attr.name = lit "bias"
  · rw [if_pos hbias] at hok
    obtain ⟨v, hv, hok⟩ := bind_ok_iff.mp hok
    obtain ⟨i, rfl⟩ := stringToInt_ok hv
    exact .inl ⟨i, (Except.ok.inj hok).symm⟩
  rw [if_neg hbias] at hok
  by_cases hid : attr.name = lit "id"
  · rw [if_pos hid] at hok
    split at hok
    · cases hok
    obtain ⟨v, hv, hok⟩ := bind_ok_iff.mp hok
    obtain ⟨i, rfl⟩ := stringToInt_ok hv
    obtain ⟨metaIds, -, hok⟩ := bind_ok_iff.mp hok
    exact .inr (.inl ⟨i, metaIds, (Except.ok.inj hok).symm⟩)
  rw [if_neg hid] at hok
  by_cases halias : attr.name = lit "alias_for"
  · rw [if_pos halias] at hok
    obtain ⟨name, hname, hok⟩ := bind_ok_iff.mp hok
    exact .inr (.inr ⟨name, hname, (Except.ok.inj hok).symm⟩)
  · rw [if_neg halias] at hok
    cases hok

theorem readPropertyAttr_cases {env : HeaderEnv} {h : Headmaker} {prop : Property}
    {attr : Attr} {s : Headmaker × Property}
    (hok : readPropertyAttr env (h, prop) attr = .ok s) :
    (∃ ignoreCase verbatim sort presort,
        s = (h, { prop with ignoreCase, verbatim, sort, presort })) ∨
      (∃ v, s = (h, { prop with max := toUInt v })) ∨
      (∃ v, s = (h, { prop with sortLength := toUInt v })) ∨
      (∃ v propIds, s = ({ h with config := { h.config with
          flags := { h.config.flags with propIds } } }, { prop with id := toInt v })) ∨
      (∃ v, s = (h, { prop with type := toInt v })) ∨
      ∃ name, strTolower env.loc attr.value = .ok name ∧
        s = (h, { prop with aliasFor := .live name }) := by
  simp only [readPropertyAttr] at hok
  by_cases hcase : attr.name = lit "ignore_case"
  · rw [if_pos hcase] at hok
    exact .inl ⟨_, _, _, _, (Except.ok.inj hok).symm⟩
  rw [if_neg hcase] at hok
  by_cases hmax : attr.name = lit "max"
  · rw [if_pos hmax] at hok
    obtain ⟨v, -, hok⟩ := bind_ok_iff.mp hok
    exact .inr (.inl ⟨v, (Except.ok.inj hok).symm⟩)
  rw [if_neg hmax] at hok
  by_cases hverbatim : attr.name = lit "verbatim"
  · rw [if_pos hverbatim] at hok
    exact .inl ⟨_, _, _, _, (Except.ok.inj hok).symm⟩
  rw [if_neg hverbatim] at hok
  by_cases hsort : attr.name = lit "sort"
  · rw [if_pos hsort] at hok
    exact .inl ⟨_, _, _, _, (Except.ok.inj hok).symm⟩
  rw [if_neg hsort] at hok
  by_cases hpresort : attr.name = lit "presort"
  · rw [if_pos hpresort] at hok
    exact .inl ⟨_, _, _, _, (Except.ok.inj hok).symm⟩
  rw [if_neg hpresort] at hok
  by_cases hlength : attr.name = lit "sort_length"
  · rw [if_pos hlength] at hok
    obtain ⟨v, -, hok⟩ := bind_ok_iff.mp hok
    exact .inr (.inr (.inl ⟨v, (Except.ok.inj hok).symm⟩))
  rw [if_neg hlength] at hok
  by_cases hid : attr.name = lit "id"
  · rw [if_pos hid] at hok
    split at hok
    · cases hok
    obtain ⟨v, hv, hok⟩ := bind_ok_iff.mp hok
    obtain ⟨i, rfl⟩ := stringToInt_ok hv
    obtain ⟨propIds, -, hok⟩ := bind_ok_iff.mp hok
    exact .inr (.inr (.inr (.inl ⟨i, propIds, (Except.ok.inj hok).symm⟩)))
  rw [if_neg hid] at hok
  by_cases htype : attr.name = lit "type"
  · rw [if_pos htype] at hok
    obtain ⟨v, hv, hok⟩ := bind_ok_iff.mp hok
    obtain ⟨i, rfl⟩ := readPropertyType_ok hv
    exact .inr (.inr (.inr (.inr (.inl ⟨i, (Except.ok.inj hok).symm⟩))))
  rw [if_neg htype] at hok
  by_cases halias : attr.name = lit "alias_for"
  · rw [if_pos halias] at hok
    obtain ⟨name, hname, hok⟩ := bind_ok_iff.mp hok
    exact .inr (.inr (.inr (.inr (.inr ⟨name, hname, (Except.ok.inj hok).symm⟩))))
  · rw [if_neg halias] at hok
    cases hok

theorem readEnd_ok {filename : XmlStr} {complete : Bool} {h : Headmaker} {c : Config}
    (hok : readEnd filename complete h = .ok c) : c = h.config := by
  unfold readEnd at hok
  split at hok
  · split at hok
    · cases hok
      rfl
    · cases hok
  all_goals cases hok

/-- The numbers are named so that the kernel need not look into them. -/
theorem assignMetaId_cases (h : Headmaker) (m : MetaName) :
    m.id ≠ -1 ∧ h.assignMetaId m = (h, m) ∨
      m.id = -1 ∧ ∃ metaId maxMetaId v, v = toInt h.metaId ∧
        h.assignMetaId m = ({ h with
            metaId
            config := { h.config with flags := { h.config.flags with maxMetaId } } },
          { m with id := v }) := by
  by_cases hid : m.id = -1
  · refine .inr ⟨hid, nextId h.metaId, toInt (nextId h.metaId), toInt h.metaId, rfl, ?_⟩
    rw [Headmaker.assignMetaId, if_pos hid]
  · exact .inl ⟨hid, by rw [Headmaker.assignMetaId, if_neg hid]⟩

theorem assignPropId_cases (h : Headmaker) (prop : Property) :
    prop.id ≠ -1 ∧ h.assignPropId prop = (h, prop) ∨
      prop.id = -1 ∧ ∃ propId maxPropId v, v = toInt h.propId ∧
        h.assignPropId prop = ({ h with
            propId
            config := { h.config with flags := { h.config.flags with maxPropId } } },
          { prop with id := v }) := by
  by_cases hid : prop.id = -1
  · refine .inr ⟨hid, nextId h.propId, toInt (nextId h.propId), toInt h.propId, rfl, ?_⟩
    rw [Headmaker.assignPropId, if_pos hid]
  · exact .inl ⟨hid, by rw [Headmaker.assignPropId, if_neg hid]⟩

/-! ## What a merge that returns has done -/

theorem headerMerge_ok {env : HeaderEnv} {fuel : Nat} {filename : XmlStr} {c c' : Config}
    (h : headerMerge env fuel filename c = .ok c') :
    ∃ config, headerRead env (fuel - 1) filename = .ok config ∧
      configMerge c config = .ok c' ∧ configFree c config = .ok () ∧
      configTestAliasFors c' = .ok () := by
  cases fuel with
  | zero => cases h
  | succ fuel =>
      rw [headerMerge] at h
      obtain ⟨config, hread, h⟩ := bind_ok_iff.mp h
      obtain ⟨merged, hmerged, h⟩ := bind_ok_iff.mp h
      obtain ⟨⟨⟩, hfree, h⟩ := bind_ok_iff.mp h
      obtain ⟨⟨⟩, htest, h⟩ := bind_ok_iff.mp h
      cases h
      exact ⟨config, hread, hmerged, hfree, htest⟩

/-- Merging takes no MetaName away. -/
theorem mem_metanames_mergeFiles {env : HeaderEnv} {fuel : Nat} {filenames : List XmlStr}
    {c c' : Config} {k : XmlStr} (h : mergeFiles env fuel c filenames = .ok c')
    (hk : k ∈ c.metanames) : k ∈ c'.metanames := by
  refine invariant (I := fun c => k ∈ c.metanames) ?_ hk h
  intro c₁ filename c₂ hk₁ hmerge
  obtain ⟨config, -, hmerged, -, -⟩ := headerMerge_ok hmerge
  rw [(configMerge_ok hmerged).1.metanames, mem_mergeWith]
  exact .inl hk₁

/-! ## Lists of words -/

/-- A list of aliases that is read has been read word by word. -/
theorem readMetanameAliases_ok {env : HeaderEnv} {str : XmlStr} {h h' : Headmaker} {m : MetaName}
    (hok : readMetanameAliases env str h m = .ok h') :
    run (readMetanameAlias env m) h (lineWords str) = .ok h' := by
  obtain ⟨words, hwords, hok⟩ := bind_ok_iff.mp hok
  obtain ⟨rfl, -⟩ := stringlistBuild_ok_iff.mp hwords
  exact hok

theorem readPropertyAliases_ok {env : HeaderEnv} {str : XmlStr} {h h' : Headmaker}
    {prop : Property} (hok : readPropertyAliases env str h prop = .ok h') :
    run (readPropertyAlias env prop) h (lineWords str) = .ok h' := by
  obtain ⟨words, hwords, hok⟩ := bind_ok_iff.mp hok
  obtain ⟨rfl, -⟩ := stringlistBuild_ok_iff.mp hwords
  exact hok

theorem readKeyValuesPair_ok {env : HeaderEnv} {table : ValuesTable} {name value : XmlStr}
    {h h' : Headmaker} (hok : readKeyValuesPair env table name value h = .ok h') :
    ∃ lower, strTolower env.loc value = .ok lower ∧
      h' = { h with config := h.config.setValues (lineWords lower) table name } := by
  obtain ⟨lower, hlower, hok⟩ := bind_ok_iff.mp hok
  obtain ⟨words, hwords, hok⟩ := bind_ok_iff.mp hok
  obtain ⟨rfl, -⟩ := stringlistBuild_ok_iff.mp hwords
  cases hok
  exact ⟨lower, hlower, rfl⟩

theorem readKeyValueStringlist_ok {env : HeaderEnv} {name value : XmlStr} {h h' : Headmaker}
    (hok : readKeyValueStringlist env name value h = .ok h') :
    ∃ strlist, h' = { h with
      config := { h.config with stringlists := h.config.stringlists.insert name strlist } } := by
  obtain ⟨lower, -, hok⟩ := bind_ok_iff.mp hok
  obtain ⟨words, -, hok⟩ := bind_ok_iff.mp hok
  cases hok
  exact ⟨_, rfl⟩

/-! ## Conditions on stores -/

/-- Conditions on storing an entry into a table, and on merging the second config into the
first. -/
structure StoreCond where
  metaname : HashTable MetaName → MetaName → Prop
  property : HashTable Property → Property → Prop
  merge : Config → Config → Prop

/-- No condition. -/
def StoreCond.free : StoreCond := ⟨fun _ _ => True, fun _ _ => True, fun _ _ => True⟩

section Meets

variable (env : HeaderEnv) (C : StoreCond)

/-- The MetaName that a word of an alias list makes can be stored. -/
def MetanameAliasMeets (m : MetaName) (h : Headmaker) (word : XmlStr) : Prop :=
  ∀ newname, strTolower env.loc word = .ok newname → newname ∉ h.config.metanames →
    C.metaname h.config.metanames { metanameInit newname with
      id := toInt h.metaId, bias := m.bias, aliasFor := .live m.name }

/-- The MetaNames that an entry of the MetaNames section makes can be stored. -/
def MetanameMeets (h : Headmaker) (node : Node) : Prop :=
  ∀ name, strTolower env.loc node.name = .ok name →
    (node.type = .text → ∀ parentName target, h.parentName = some parentName →
      strTolower env.loc parentName = .ok target →
        Steps (readMetanameAlias env { metanameInit name with name := target })
          (MetanameAliasMeets env C { metanameInit name with name := target }) h
          (lineWords node.text)) ∧
    (node.type ≠ .text → ∀ h₁ m,
      run (readMetanameAttr env) (h, metanameInit name) (attrsRead node.attributes) =
          .ok (h₁, m) →
        m.name ∉ h₁.config.metanames →
          C.metaname h₁.config.metanames (h₁.assignMetaId m).2)

/-- The Property that a word of an alias list makes can be stored. -/
def PropertyAliasMeets (prop : Property) (h : Headmaker) (word : XmlStr) : Prop :=
  ∀ newname, strTolower env.loc word = .ok newname → newname ∉ h.config.properties →
    C.property h.config.properties { propertyInit newname with
      aliasFor := .live prop.name
      id := toInt h.propId
      ignoreCase := prop.ignoreCase
      type := prop.type
      verbatim := prop.verbatim
      max := prop.max
      sort := prop.sort }

/-- The Properties that an entry of the PropertyNames section makes can be stored. -/
def PropertyMeets (h : Headmaker) (node : Node) : Prop :=
  ∀ name, strTolower env.loc node.name = .ok name →
    (node.type = .text → ∀ parentName target, h.parentName = some parentName →
      strTolower env.loc parentName = .ok target →
        Steps (readPropertyAlias env { propertyInit name with name := target })
          (PropertyAliasMeets env C { propertyInit name with name := target }) h
          (lineWords node.text)) ∧
    (node.type ≠ .text → ∀ h₁ prop,
      run (readPropertyAttr env) (h, propertyInit name) (attrsRead node.attributes) =
          .ok (h₁, prop) →
        prop.name ∉ h₁.config.properties →
          C.property h₁.config.properties (h₁.assignPropId prop).2)

/-- What a node stores meets the conditions; `mergeMeets` speaks for an included file. -/
def NodeMeets (mergeMeets : XmlStr → Config → Prop) (h : Headmaker) (node : Node) : Prop :=
  match h.awaiting with
  | .node =>
    nodeKind h.isValid node = .entry →
      (h.inSection = some .metas → MetanameMeets env C h node) ∧
        (h.inSection = some .props → PropertyMeets env C h node)
  | .includeFile =>
    ∀ filename, resolveConfFile env h.confFile node.text = .ok filename →
      mergeMeets filename h.config
  | .value _ _ | .values _ _ | .stringlist _ => True

/-- Every store made while a file is read meets the conditions. -/
def ReadMeets (fuel : Nat) (mergeMeets : XmlStr → Config → Prop) (filename : XmlStr) : Prop :=
  ∀ confFile reader, openReader env filename = .ok (confFile, reader) →
    Steps (readNode env (headerMerge env fuel)) (NodeMeets env C mergeMeets)
      (initHeadmaker env confFile) reader.nodes

/-- Every store made while a file is read and merged into `c` meets the conditions. -/
def MergeMeets : (fuel : Nat) → (filename : XmlStr) → (c : Config) → Prop
  | 0, _, _ => True
  | fuel + 1, filename, c =>
    ReadMeets env C fuel (MergeMeets fuel) filename ∧
      ∀ config, headerRead env fuel filename = .ok config → C.merge c config

end Meets

/-! ## Obligations of an invariant -/

/-- The stores keep `P`.  `Q` and `R` are what is known of a MetaName or Property that the
reader has put together. -/
structure KeptBy (loc : Locale) (C : StoreCond) (P : Config → Prop) (Q : MetaName → Prop)
    (R : Property → Prop) : Prop where
  init : P configInit
  ids : ∀ c maxMetaId maxPropId metaIds propIds, P c →
    P { c with flags := { c.flags with maxMetaId, maxPropId, metaIds, propIds } }
  metaname_init : ∀ s name, strTolower loc s = .ok name → Q (metanameInit name)
  metaname_attr : ∀ m v, Q m → Q { m with bias := toInt v } ∧ Q { m with id := toInt v }
  metaname_alias : ∀ m s name, Q m → strTolower loc s = .ok name →
    Q { m with aliasFor := .live name } ∧ Q { m with name }
  metaname_new : ∀ m newname n, Q m → Q (metanameInit newname) →
    Q { metanameInit newname with id := toInt n, bias := m.bias, aliasFor := .live m.name }
  metaname : ∀ c m, P c → Q m → m.name ∉ c.metanames → C.metaname c.metanames m →
    P { c with metanames := c.metanames.insert m.name m }
  metaname_target : ∀ c name newmeta m, P c → Q m → c.metanames.lookup name = some newmeta →
    P { c with metanames :=
          c.metanames.insert name { newmeta with aliasFor := .live m.name } }
  property_init : ∀ s name, strTolower loc s = .ok name → R (propertyInit name)
  property_attr : ∀ prop v ignoreCase verbatim sort presort, R prop →
    R { prop with ignoreCase, verbatim, sort, presort } ∧ R { prop with max := toUInt v } ∧
      R { prop with sortLength := toUInt v } ∧ R { prop with id := toInt v } ∧
      R { prop with type := toInt v }
  property_alias : ∀ prop s name, R prop → strTolower loc s = .ok name →
    R { prop with aliasFor := .live name } ∧ R { prop with name }
  property_new : ∀ prop newname n, R prop → R (propertyInit newname) →
    R { propertyInit newname with
      aliasFor := .live prop.name
      id := toInt n
      ignoreCase := prop.ignoreCase
      type := prop.type
      verbatim := prop.verbatim
      max := prop.max
      sort := prop.sort }
  property : ∀ c prop, P c → R prop → prop.name ∉ c.properties →
    C.property c.properties prop →
      P { c with properties := c.properties.insert prop.name prop }
  value : ∀ c table key value, P c → table ≠ .misc → Unreserved key →
    strAllWs value = false → P (c.setValue table key value)
  misc : ∀ c key value c', P c → Unreserved key → key ≠ Swish.classAttributes →
    strAllWs value = false → handleSpecialMiscFlags (c.setValue .misc key value) = .ok c' → P c'
  values : ∀ c str lower table name, P c → Unreserved name → strTolower loc str = .ok lower →
    P (c.setValues (lineWords lower) table name)
  stringlist : ∀ c name strlist, P c →
    P { c with stringlists := c.stringlists.insert name strlist }
  merge : ∀ c1 c2 c, P c1 → P c2 → C.merge c1 c2 → configMerge c1 c2 = .ok c →
    configFree c1 c2 = .ok () → configTestAliasFors c = .ok () → P c

section Kept

variable {env : HeaderEnv} {C : StoreCond} {P : Config → Prop} {Q : MetaName → Prop}
  {R : Property → Prop} (H : KeptBy env.loc C P Q R)

include H

/-! ### MetaNames -/

private theorem readMetanameAlias_kept {m : MetaName} {h h' : Headmaker} {word : XmlStr}
    (hmeets : MetanameAliasMeets env C m h word) (hQ : Q m) (hP : P h.config)
    (hok : readMetanameAlias env m h word = .ok h') :
    P h'.config ∧ h'.awaiting = h.awaiting := by
  unfold readMetanameAlias at hok
  split at hok
  · cases hok
  obtain ⟨newname, hlower, hok⟩ := bind_ok_iff.mp hok
  split at hok
  · rename_i newmeta hlook
    cases hok
    exact ⟨H.metaname_target h.config newname newmeta m hP hQ hlook, rfl⟩
  · rename_i hlook
    cases hok
    have hnew : newname ∉ h.config.metanames := AList.lookup_eq_none.mp hlook
    have hQnew := H.metaname_new m newname h.metaId hQ (H.metaname_init word newname hlower)
    exact ⟨H.metaname h.config _ hP hQnew hnew (hmeets newname hlower hnew), rfl⟩

private theorem readMetanameAttr_kept {s s' : Headmaker × MetaName} {attr : Attr}
    (hP : P s.1.config) (hQ : Q s.2) (hok : readMetanameAttr env s attr = .ok s') :
    P s'.1.config ∧ Q s'.2 ∧ s'.1.awaiting = s.1.awaiting := by
  obtain ⟨h, m⟩ := s
  obtain ⟨v, rfl⟩ | ⟨v, metaIds, rfl⟩ | ⟨name, hname, rfl⟩ := readMetanameAttr_cases hok
  · exact ⟨hP, (H.metaname_attr m v hQ).1, rfl⟩
  · exact ⟨H.ids _ _ _ _ _ hP, (H.metaname_attr m v hQ).2, rfl⟩
  · exact ⟨hP, (H.metaname_alias m _ name hQ hname).1, rfl⟩

private theorem assignMetaId_kept {h : Headmaker} {m : MetaName} (hP : P h.config) (hQ : Q m) :
    P (h.assignMetaId m).1.config ∧ Q (h.assignMetaId m).2 ∧
      (h.assignMetaId m).1.config.metanames = h.config.metanames ∧
      (h.assignMetaId m).2.name = m.name ∧ (h.assignMetaId m).1.awaiting = h.awaiting := by
  obtain ⟨-, heq⟩ | ⟨-, metaId, maxMetaId, v, hv, heq⟩ := assignMetaId_cases h m
  · rw [heq]
    exact ⟨hP, hQ, rfl, rfl, rfl⟩
  · have hid : Q { m with id := v } := hv ▸ (H.metaname_attr m _ hQ).2
    rw [heq]
    exact ⟨H.ids _ _ _ _ _ hP, hid, rfl, rfl, rfl⟩

private theorem readMetaname_kept {h h' : Headmaker} {node : Node}
    (hmeets : MetanameMeets env C h node) (hP : P h.config)
    (hok : readMetaname env node h = .ok h') : P h'.config ∧ h'.awaiting = h.awaiting := by
  unfold readMetaname at hok
  obtain ⟨name, hname, hok⟩ := bind_ok_iff.mp hok
  have hinit : Q (metanameInit name) := H.metaname_init node.name name hname
  split at hok
  · rename_i htext
    split at hok
    · cases hok
    rename_i parentName hparent
    obtain ⟨target, htarget, hok⟩ := bind_ok_iff.mp hok
    have hsteps := (hmeets name hname).1 htext parentName target hparent htarget
    have hQ := (H.metaname_alias (metanameInit name) parentName target hinit htarget).2
    refine invariant_of_steps (I := fun k => P k.config ∧ k.awaiting = h.awaiting) ?_
      ⟨hP, rfl⟩ hsteps (readMetanameAliases_ok hok)
    intro k word k' hk hmeet hstep
    obtain ⟨hP', hawait⟩ := readMetanameAlias_kept H hmeet hQ hk.1 hstep
    exact ⟨hP', hawait.trans hk.2⟩
  · rename_i htext
    obtain ⟨⟨h₁, m⟩, hattrs, hok⟩ := bind_ok_iff.mp hok
    have hread : P h₁.config ∧ Q m ∧ h₁.awaiting = h.awaiting := by
      refine invariant (I := fun s => P s.1.config ∧ Q s.2 ∧ s.1.awaiting = h.awaiting) ?_
        ⟨hP, hinit, rfl⟩ hattrs
      intro s attr s' hs hstep
      obtain ⟨hP', hQ', hawait⟩ := readMetanameAttr_kept H hs.1 hs.2.1 hstep
      exact ⟨hP', hQ', hawait.trans hs.2.2⟩
    obtain ⟨hP₁, hQ₁, hawait₁⟩ := hread
    have hassigned := assignMetaId_kept H hP₁ hQ₁
    have hstore := (hmeets name hname).2 htext h₁ m hattrs
    cases hassign : h₁.assignMetaId m with
    | mk h₂ m₂ =>
        simp only [hassign] at hok hassigned hstore
        obtain ⟨hP₂, hQ₂, hmetas, hnames, hawait₂⟩ := hassigned
        rw [← hmetas, ← hnames] at hstore
        cases hok
        rw [Headmaker.addMetaname]
        split
        · exact ⟨hP₂, hawait₂.trans hawait₁⟩
        · rename_i hnew
          exact ⟨H.metaname _ _ hP₂ hQ₂ hnew (hstore hnew), hawait₂.trans hawait₁⟩

/-! ### Properties -/

private theorem readPropertyAlias_kept {prop : Property} {h h' : Headmaker} {word : XmlStr}
    (hmeets : PropertyAliasMeets env C prop h word) (hR : R prop) (hP : P h.config)
    (hok : readPropertyAlias env prop h word = .ok h') :
    P h'.config ∧ h'.awaiting = h.awaiting := by
  unfold readPropertyAlias at hok
  split at hok
  · cases hok
  obtain ⟨newname, hlower, hok⟩ := bind_ok_iff.mp hok
  obtain ⟨properties, hadd, hok⟩ := bind_ok_iff.mp hok
  obtain ⟨hnew, rfl⟩ := hashAdd_ok_iff.mp hadd
  cases hok
  have hRnew := H.property_new prop newname h.propId hR (H.property_init word newname hlower)
  exact ⟨H.property h.config _ hP hRnew hnew (hmeets newname hlower hnew), rfl⟩

private theorem readPropertyAttr_kept {s s' : Headmaker × Property} {attr : Attr}
    (hP : P s.1.config) (hR : R s.2) (hok : readPropertyAttr env s attr = .ok s') :
    P s'.1.config ∧ R s'.2 ∧ s'.1.awaiting = s.1.awaiting := by
  obtain ⟨h, prop⟩ := s
  have hattr := fun v ignoreCase verbatim sort presort =>
    H.property_attr prop v ignoreCase verbatim sort presort hR
  obtain ⟨_, _, _, _, rfl⟩ | ⟨v, rfl⟩ | ⟨v, rfl⟩ | ⟨v, propIds, rfl⟩ | ⟨v, rfl⟩ |
    ⟨name, hname, rfl⟩ := readPropertyAttr_cases hok
  · exact ⟨hP, (hattr 0 _ _ _ _).1, rfl⟩
  · exact ⟨hP, (hattr v true true true true).2.1, rfl⟩
  · exact ⟨hP, (hattr v true true true true).2.2.1, rfl⟩
  · exact ⟨H.ids _ _ _ _ _ hP, (hattr v true true true true).2.2.2.1, rfl⟩
  · exact ⟨hP, (hattr v true true true true).2.2.2.2, rfl⟩
  · exact ⟨hP, (H.property_alias prop _ name hR hname).1, rfl⟩

private theorem assignPropId_kept {h : Headmaker} {prop : Property} (hP : P h.config)
    (hR : R prop) :
    P (h.assignPropId prop).1.config ∧ R (h.assignPropId prop).2 ∧
      (h.assignPropId prop).1.config.properties = h.config.properties ∧
      (h.assignPropId prop).2.name = prop.name ∧
      (h.assignPropId prop).1.awaiting = h.awaiting := by
  obtain ⟨-, heq⟩ | ⟨-, propId, maxPropId, v, hv, heq⟩ := assignPropId_cases h prop
  · rw [heq]
    exact ⟨hP, hR, rfl, rfl, rfl⟩
  · have hid : R { prop with id := v } :=
      hv ▸ (H.property_attr prop _ true true true true hR).2.2.2.1
    rw [heq]
    exact ⟨H.ids _ _ _ _ _ hP, hid, rfl, rfl, rfl⟩

private theorem readProperty_kept {h h' : Headmaker} {node : Node}
    (hmeets : PropertyMeets env C h node) (hP : P h.config)
    (hok : readProperty env node h = .ok h') : P h'.config ∧ h'.awaiting = h.awaiting := by
  unfold readProperty at hok
  obtain ⟨name, hname, hok⟩ := bind_ok_iff.mp hok
  have hinit : R (propertyInit name) := H.property_init node.name name hname
  split at hok
  · rename_i htext
    split at hok
    · cases hok
    rename_i parentName hparent
    obtain ⟨target, htarget, hok⟩ := bind_ok_iff.mp hok
    have hsteps := (hmeets name hname).1 htext parentName target hparent htarget
    have hR := (H.property_alias (propertyInit name) parentName target hinit htarget).2
    refine invariant_of_steps (I := fun k => P k.config ∧ k.awaiting = h.awaiting) ?_
      ⟨hP, rfl⟩ hsteps (readPropertyAliases_ok hok)
    intro k word k' hk hmeet hstep
    obtain ⟨hP', hawait⟩ := readPropertyAlias_kept H hmeet hR hk.1 hstep
    exact ⟨hP', hawait.trans hk.2⟩
  · rename_i htext
    obtain ⟨⟨h₁, prop⟩, hattrs, hok⟩ := bind_ok_iff.mp hok
    have hread : P h₁.config ∧ R prop ∧ h₁.awaiting = h.awaiting := by
      refine invariant (I := fun s => P s.1.config ∧ R s.2 ∧ s.1.awaiting = h.awaiting) ?_
        ⟨hP, hinit, rfl⟩ hattrs
      intro s attr s' hs hstep
      obtain ⟨hP', hR', hawait⟩ := readPropertyAttr_kept H hs.1 hs.2.1 hstep
      exact ⟨hP', hR', hawait.trans hs.2.2⟩
    obtain ⟨hP₁, hR₁, hawait₁⟩ := hread
    have hassigned := assignPropId_kept H hP₁ hR₁
    have hstore := (hmeets name hname).2 htext h₁ prop hattrs
    cases hassign : h₁.assignPropId prop with
    | mk h₂ prop₂ =>
        simp only [hassign] at hok hassigned hstore
        obtain ⟨hP₂, hR₂, hprops, hnames, hawait₂⟩ := hassigned
        rw [← hprops, ← hnames] at hstore
        obtain ⟨h₃, hadd, hok⟩ := bind_ok_iff.mp hok
        unfold Headmaker.addProperty at hadd
        split at hadd
        · cases hadd
        rename_i hnew
        cases hadd
        cases hok
        exact ⟨H.property _ _ hP₂ hR₂ hnew (hstore hnew), hawait₂.trans hawait₁⟩

/-! ### Nodes, files and merges -/

private theorem processEntry_kept {h h' : Headmaker} {node : Node}
    (hmetas : h.inSection = some .metas → MetanameMeets env C h node)
    (hprops : h.inSection = some .props → PropertyMeets env C h node)
    (hname : Unreserved node.localNameOr) (hP : P h.config) (hawait : h.awaiting.Named)
    (hok : processEntry env node h = .ok h') : P h'.config ∧ h'.awaiting.Named := by
  simp only [processEntry] at hok
  split at hok
  · rename_i hsec
    obtain ⟨hP', hsame⟩ := readProperty_kept H (hprops hsec) hP hok
    exact ⟨hP', hsame ▸ hawait⟩
  · rename_i hsec
    obtain ⟨hP', hsame⟩ := readMetaname_kept H (hmetas hsec) hP hok
    exact ⟨hP', hsame ▸ hawait⟩
  · cases hok
    exact ⟨hP, hname, by intro h; cases h⟩
  · cases hok
    exact ⟨hP, hname⟩
  · cases hok
    exact ⟨hP, hname, by intro h; cases h⟩
  · cases hok
    exact ⟨hP, hname⟩
  · split at hok
    · cases hok
      exact ⟨hP, trivial⟩
    rename_i hclass
    split at hok
    · cases hok
      exact ⟨hP, hname, fun _ => hclass⟩
    · cases hok
      exact ⟨hP, hawait⟩

private theorem processNode_kept {h h' : Headmaker} {node : Node}
    (hmeets : nodeKind h.isValid node = .entry →
      (h.inSection = some .metas → MetanameMeets env C h node) ∧
        (h.inSection = some .props → PropertyMeets env C h node))
    (hP : P h.config) (hawait : h.awaiting.Named) (hok : processNode env node h = .ok h') :
    P h'.config ∧ h'.awaiting.Named := by
  unfold processNode at hok
  split at hok
  · cases hok
    exact ⟨hP, hawait⟩
  · cases hok
    exact ⟨hP, hawait⟩
  · cases hok
  · cases hok
    exact ⟨hP, hawait⟩
  · cases hok
    exact ⟨hP, trivial⟩
  · cases hok
    exact ⟨hP, hawait⟩
  · rename_i hentry
    exact processEntry_kept H (hmeets hentry).1 (hmeets hentry).2 (unreserved_of_entry hentry)
      hP hawait hok

private theorem readNode_kept {mergeFile : XmlStr → Config → Swish Config}
    {mergeMeets : XmlStr → Config → Prop}
    (hmerge : ∀ filename c c', mergeMeets filename c → P c → mergeFile filename c = .ok c' → P c')
    {h h' : Headmaker} {node : Node} (hmeets : NodeMeets env C mergeMeets h node)
    (htext : node.type = .text → strAllWs node.text = false) (hP : P h.config)
    (hawait : h.awaiting.Named) (hok : readNode env mergeFile h node = .ok h') :
    P h'.config ∧ h'.awaiting.Named := by
  unfold NodeMeets at hmeets
  simp only [readNode] at hok
  split at hok
  · rename_i heq
    rw [heq] at hmeets
    exact processNode_kept H hmeets hP hawait hok
  · rename_i table name heq
    rw [heq] at hawait
    split at hok
    · rename_i htype
      simp only [readKeyValuePair] at hok
      cases table with
      | misc =>
          obtain ⟨c', hc', hok⟩ := bind_ok_iff.mp hok
          cases hok
          exact ⟨H.misc h.config name node.text c' hP hawait.1 (hawait.2 rfl) (htext htype) hc',
            trivial⟩
      | index =>
          cases hok
          exact ⟨H.value h.config .index name node.text hP (by decide) hawait.1 (htext htype),
            trivial⟩
      | mimes =>
          cases hok
          exact ⟨H.value h.config .mimes name node.text hP (by decide) hawait.1 (htext htype),
            trivial⟩
    · cases hok
  · rename_i table name heq
    rw [heq] at hawait
    split at hok
    · obtain ⟨lower, hlower, rfl⟩ := readKeyValuesPair_ok hok
      exact ⟨H.values h.config node.text lower table name hP hawait hlower, trivial⟩
    · cases hok
  · split at hok
    · obtain ⟨strlist, rfl⟩ := readKeyValueStringlist_ok hok
      exact ⟨H.stringlist h.config _ _ hP, trivial⟩
    · cases hok
  · rename_i heq
    rw [heq] at hmeets
    split at hok
    · obtain ⟨filename, hfile, hok⟩ := bind_ok_iff.mp hok
      obtain ⟨c', hc', hok⟩ := bind_ok_iff.mp hok
      cases hok
      exact ⟨hmerge filename h.config c' (hmeets filename hfile) hP hc', trivial⟩
    · cases hok

private theorem readHeader_kept {fuel : Nat} {mergeMeets : XmlStr → Config → Prop}
    (hmerge : ∀ filename c c', mergeMeets filename c → P c →
      headerMerge env fuel filename c = .ok c' → P c')
    {filename : XmlStr} {config : Config} (hmeets : ReadMeets env C fuel mergeMeets filename)
    (hok : headerRead env fuel filename = .ok config) : P config := by
  unfold headerRead readHeader at hok
  obtain ⟨⟨confFile, reader⟩, hopen, hok⟩ := bind_ok_iff.mp hok
  obtain ⟨h, hrun, hok⟩ := bind_ok_iff.mp hok
  rw [readEnd_ok hok]
  have hsteps := (hmeets confFile reader hopen).and
    (steps_of_forall (Q := fun node => node.type = .text → strAllWs node.text = false)
      reader.text_not_blank)
  refine (invariant_of_steps (I := fun k => P k.config ∧ k.awaiting.Named) ?_
    ⟨H.init, trivial⟩ hsteps hrun).1
  intro k node k' hk hmeet hstep
  exact readNode_kept H hmerge hmeet.1 hmeet.2 hk.1 hk.2 hstep

/-- An invariant of the stores is one of reading and merging, as long as every store made
on the way meets its condition.  The induction is on the depth of inclusion. -/
theorem headerMerge_kept {fuel : Nat} {filename : XmlStr} {c c' : Config}
    (hmeets : MergeMeets env C fuel filename c) (hP : P c)
    (hok : headerMerge env fuel filename c = .ok c') : P c' := by
  induction fuel generalizing filename c c' with
  | zero => cases hok
  | succ fuel ih =>
      obtain ⟨config, hread, hmerged, hfree, htest⟩ := headerMerge_ok hok
      have hconfig : P config :=
        readHeader_kept H (fun f c c' hm hc => ih hm hc) hmeets.1 hread
      exact H.merge c config c' hP hconfig (hmeets.2 config hread) hmerged hfree htest

/-- The same for a file that is only read. -/
theorem headerRead_kept {fuel : Nat} {filename : XmlStr} {config : Config}
    (hmeets : ReadMeets env C fuel (MergeMeets env C fuel) filename)
    (hok : headerRead env fuel filename = .ok config) : P config :=
  readHeader_kept H (fun _ _ _ hm hc h => headerMerge_kept H hm hc h) hmeets hok

end Kept

/-! ## Without conditions -/

section Free

variable {env : HeaderEnv}

private theorem nodeMeets_free (mergeMeets : XmlStr → Config → Prop)
    (hmerge : ∀ filename c, mergeMeets filename c) (h : Headmaker) (node : Node) :
    NodeMeets env .free mergeMeets h node := by
  rw [NodeMeets]
  cases h.awaiting with
  | node =>
      refine fun _ => ⟨fun _ name _ => ⟨?_, ?_⟩, fun _ name _ => ⟨?_, ?_⟩⟩
      · intro _ _ _ _ _ _ _ _ _ _ _ _ _ _
        trivial
      · intro _ _ _ _ _
        trivial
      · intro _ _ _ _ _ _ _ _ _ _ _ _ _ _
        trivial
      · intro _ _ _ _ _
        trivial
  | includeFile => exact fun filename _ => hmerge filename h.config
  | value table name => trivial
  | values table name => trivial
  | stringlist name => trivial

theorem mergeMeets_free (fuel : Nat) (filename : XmlStr) (c : Config) :
    MergeMeets env .free fuel filename c := by
  induction fuel generalizing filename c with
  | zero => trivial
  | succ fuel ih =>
      refine ⟨fun confFile reader _ pre node post t _ _ => ?_, fun _ _ => trivial⟩
      exact nodeMeets_free _ ih t node

theorem readMeets_free (fuel : Nat) (filename : XmlStr) :
    ReadMeets env .free fuel (MergeMeets env .free fuel) filename :=
  fun _ _ _ _ node _ t _ _ => nodeMeets_free _ (mergeMeets_free fuel) t node

end Free

end LibSwish3
