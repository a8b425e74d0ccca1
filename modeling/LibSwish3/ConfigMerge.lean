import LibSwish3.Config
import LibSwish3.Lib.Runs

/-!
# Merging configs

`swish_config_merge` copies one config over another, table by table, and then the flags.
`handle_special_misc_flags` is its counterpart at read time; the two read a directive by
the same rules, which `directive` states once.

`copyAlias` is where the merge leaves a released pointer behind.

## Main definitions

* `configMerge` — `swish_config_merge`.
* `configTestAliasFors` — `swish_config_test_alias_fors`.
* `Overrides` — the second config's entries replace the first's, and nothing else changes.
* `MergeComplete` — when the code achieves that.
-/

namespace LibSwish3

open Runs Tables

/-! ## Directives and flags -/

/-- The flag a directive of `misc` asks for, or `dflt` where it is not set. -/
def directive {F : Type} (parse : XmlStr → Swish F) (key : XmlStr) (misc : HashTable XmlStr)
    (dflt : F) : Swish F :=
  match misc.lookup key with
  | some v => parse v
  | none => .ok dflt

def parseBoolean (v : XmlStr) : Swish Bool := .ok (stringToBoolean v)

def parseUndefMetas (v : XmlStr) : Swish UndefMetas :=
  if v = lit "error" then .ok .error
  else if v = lit "ignore" then .ok .ignore
  else if v = lit "index" then .ok .index
  else if v = lit "auto" then .ok .auto
  else if v = lit "autoall" then .ok .autoall
  else croak [lit "Unknown value for ", Swish.undefinedMetatags, lit ": ", v]

def parseUndefAttrs (v : XmlStr) : Swish UndefAttrs :=
  if v = lit "error" then .ok .error
  else if v = lit "ignore" then .ok .ignore
  else if v = lit "index" then .ok .index
  else if v = lit "auto" then .ok .auto
  else if v = lit "autoall" then .ok .autoall
  else if v = lit "disable" then .ok .disable
  else croak [lit "Unknown value for ", Swish.undefinedXmlAttributes, lit ": ", v]

/-- Set the flags from the directives read so far.  `FollowXInclude` has no case here. -/
def handleSpecialMiscFlags (c : Config) : Swish Config := do
  let flags := c.flags
  let tokenize ← directive parseBoolean Swish.tokenize c.misc flags.tokenize
  let cascadeMetaContext ←
    directive parseBoolean Swish.cascadeMetaContext c.misc flags.cascadeMetaContext
  let ignoreXmlns ← directive parseBoolean Swish.ignoreXmlns c.misc flags.ignoreXmlns
  let undefMetas ← directive parseUndefMetas Swish.undefinedMetatags c.misc flags.undefMetas
  let undefAttrs ←
    directive parseUndefAttrs Swish.undefinedXmlAttributes c.misc flags.undefAttrs
  pure { c with flags := { flags with
    tokenize, cascadeMetaContext, ignoreXmlns, undefMetas, undefAttrs } }

/-! ## Copying entries -/

/-- The new `alias_for` of an entry.  The old text is released when there is one, and the
pointer is set only when the other entry has a text, so it can be left dangling.  Reading
or releasing a dangling pointer is undefined; it is kept as dangling here, and `CPtr.read`
stops at it. -/
def copyAlias : (alias1 alias2 : CPtr XmlStr) → CPtr XmlStr
  | .freed, _ => .freed
  | _, .freed => .freed
  | _, .live name => .live name
  | .null, .null => .null
  | .live _, .null => .freed

def copyProperty (prop2name : XmlStr) (found : Option Property) (prop2 : Property) : Property :=
  let prop1 := match found with
    | some prop1 => { prop1 with name := prop2.name }
    | none => propertyInit prop2name
  { prop1 with
    id := prop2.id
    ignoreCase := prop2.ignoreCase
    type := prop2.type
    verbatim := prop2.verbatim
    aliasFor := copyAlias prop1.aliasFor prop2.aliasFor
    max := prop2.max
    sort := prop2.sort }

def copyMetaname (meta2name : XmlStr) (found : Option MetaName) (meta2 : MetaName) : MetaName :=
  let meta1 := match found with
    | some meta1 => { meta1 with name := meta2.name }
    | none => metanameInit meta2name
  { meta1 with
    id := meta2.id
    bias := meta2.bias
    aliasFor := copyAlias meta1.aliasFor meta2.aliasFor }

def copyStrlist (_key : XmlStr) (strlist1 : Option (List XmlStr)) (strlist2 : List XmlStr) :
    List XmlStr :=
  match strlist1 with
  | some strlist1 => strlist1 ++ strlist2
  | none => strlist2

/-- `swish_config_merge`: the flags of `config1` become those of `config2`, read again from
`config2`'s directives where there are any. -/
def configMerge (config1 config2 : Config) : Swish Config := do
  let misc := config2.misc
  let flags := config2.flags
  let tokenize ← directive parseBoolean Swish.tokenize misc flags.tokenize
  let cascadeMetaContext ←
    directive parseBoolean Swish.cascadeMetaContext misc flags.cascadeMetaContext
  let ignoreXmlns ← directive parseBoolean Swish.ignoreXmlns misc flags.ignoreXmlns
  let followXinclude ← directive parseBoolean Swish.followXinclude misc flags.followXinclude
  let undefMetas ← directive parseUndefMetas Swish.undefinedMetatags misc flags.undefMetas
  let undefAttrs ←
    directive parseUndefAttrs Swish.undefinedXmlAttributes misc flags.undefAttrs
  pure {
    properties := mergeWith copyProperty config1.properties config2.properties
    metanames := mergeWith copyMetaname config1.metanames config2.metanames
    parsers := hashMerge config1.parsers config2.parsers
    mimes := hashMerge config1.mimes config2.mimes
    index := hashMerge config1.index config2.index
    tagAliases := hashMerge config1.tagAliases config2.tagAliases
    misc := hashMerge config1.misc config2.misc
    stringlists := mergeWith copyStrlist config1.stringlists config2.stringlists
    flags := { config1.flags with
      tokenize, cascadeMetaContext, ignoreXmlns, followXinclude, undefMetas, undefAttrs
      maxMetaId := Max.max config1.flags.maxMetaId flags.maxMetaId
      maxPropId := Max.max config1.flags.maxPropId flags.maxPropId } }

/-! ## Alias targets -/

def testMetaAliasFor (c : Config) (name : XmlStr) (m : MetaName) : Swish Unit := do
  match ← m.aliasFor.read with
  | none => pure ()
  | some target =>
    if target ∈ c.metanames then pure ()
    else croak [lit "MetaName '", name, lit "' has alias_for value of '", target,
      lit "' but no such MetaName defined"]

def testPropAliasFor (c : Config) (name : XmlStr) (prop : Property) : Swish Unit := do
  match ← prop.aliasFor.read with
  | none => pure ()
  | some target =>
    if target ∈ c.properties then pure ()
    else if (← propertyGetId target c.properties) ≠ 0 then pure ()
    else croak [lit "Property '", name, lit "' has alias_for value of '", target,
      lit "' but no such Property defined"]

/-- `swish_config_test_alias_fors`. -/
def configTestAliasFors (c : Config) : Swish Unit := do
  scanM (testMetaAliasFor c) c.metanames
  scanM (testPropAliasFor c) c.properties

/-! ## What a merge gives -/

/-- Two pointers lead to the same text, or both to none. -/
def SameText (p q : CPtr XmlStr) : Prop := ∃ t, p.read = .ok t ∧ q.read = .ok t

/-- The copied pointer leads where the other one does, as long as neither dangles and the
old text does not have to go without a successor. -/
theorem sameText_copyAlias_iff {alias1 alias2 : CPtr XmlStr} :
    SameText (copyAlias alias1 alias2) alias2 ↔
      alias1 ≠ .freed ∧ alias2 ≠ .freed ∧ (alias2 = .null → alias1 = .null) := by
  rw [SameText]
  cases alias1 <;> cases alias2 <;> simp [copyAlias]

/-- Two MetaNames agree in every attribute. -/
structure MetaName.Same (meta1 meta2 : MetaName) : Prop where
  id : meta1.id = meta2.id
  bias : meta1.bias = meta2.bias
  aliasFor : SameText meta1.aliasFor meta2.aliasFor

/-- Two Properties agree in every attribute. -/
structure Property.Same (prop1 prop2 : Property) : Prop where
  id : prop1.id = prop2.id
  ignoreCase : prop1.ignoreCase = prop2.ignoreCase
  type : prop1.type = prop2.type
  verbatim : prop1.verbatim = prop2.verbatim
  aliasFor : SameText prop1.aliasFor prop2.aliasFor
  max : prop1.max = prop2.max
  sort : prop1.sort = prop2.sort
  presort : prop1.presort = prop2.presort
  sortLength : prop1.sortLength = prop2.sortLength

/-- Outside the keys of `t₂` the table `t` holds what `t₁` held. -/
def Kept {α : Type} (t₁ t₂ t : HashTable α) : Prop := ∀ k, k ∉ t₂ → t.lookup k = t₁.lookup k

/-- Every entry of `t₂` has a counterpart in `t` that is related to it by `R`. -/
def Taken {α : Type} (R : α → α → Prop) (t₂ t : HashTable α) : Prop :=
  ∀ k a, t₂.lookup k = some a → ∃ b, t.lookup k = some b ∧ R b a

/-- The entries of `c2` replace those of `c1`, and no other key is touched or added. -/
structure Overrides (c1 c2 c : Config) : Prop where
  metanames : Taken MetaName.Same c2.metanames c.metanames
  properties : Taken Property.Same c2.properties c.properties
  parsers : Taken Eq c2.parsers c.parsers
  mimes : Taken Eq c2.mimes c.mimes
  index : Taken Eq c2.index c.index
  tagAliases : Taken Eq c2.tagAliases c.tagAliases
  misc : Taken Eq c2.misc c.misc
  metanames_kept : Kept c1.metanames c2.metanames c.metanames
  properties_kept : Kept c1.properties c2.properties c.properties
  parsers_kept : Kept c1.parsers c2.parsers c.parsers
  mimes_kept : Kept c1.mimes c2.mimes c.mimes
  index_kept : Kept c1.index c2.index c.index
  tagAliases_kept : Kept c1.tagAliases c2.tagAliases c.tagAliases
  misc_kept : Kept c1.misc c2.misc c.misc
  stringlists_kept : Kept c1.stringlists c2.stringlists c.stringlists

theorem kept_mergeWith {α : Type} (f : XmlStr → Option α → α → α) (t₁ t₂ : HashTable α) :
    Kept t₁ t₂ (mergeWith f t₁ t₂) := by
  intro k hk
  exact lookup_mergeWith_of_none (AList.lookup_eq_none.mpr hk)

/-- The entries of a merged table are related to the second table's exactly when the
stored value always is. -/
theorem taken_mergeWith_iff {α : Type} {R : α → α → Prop} {f : XmlStr → Option α → α → α}
    {t₁ t₂ : HashTable α} :
    Taken R t₂ (mergeWith f t₁ t₂) ↔
      ∀ k a, t₂.lookup k = some a → R (f k (t₁.lookup k) a) a := by
  refine forall₃_congr fun k a h => ?_
  simp [lookup_mergeWith_of_some h]

theorem taken_hashMerge (t₁ t₂ : HashTable XmlStr) : Taken Eq t₂ (hashMerge t₁ t₂) :=
  taken_mergeWith_iff.mpr fun _ _ _ => rfl

/-- The MetaName to be merged can be copied over what is stored under its name: no pointer
dangles, and it does not have to take an alias away. -/
def CopiesMetaname (found : Option MetaName) (meta2 : MetaName) : Prop :=
  meta2.aliasFor ≠ .freed ∧
    ∀ meta1, found = some meta1 →
      meta1.aliasFor ≠ .freed ∧ (meta2.aliasFor = .null → meta1.aliasFor = .null)

/-- The Property to be merged can be copied over what is stored under its name: as for a
MetaName, and its `presort` and `sort_length` are already there. -/
def CopiesProperty (found : Option Property) (prop2 : Property) : Prop :=
  prop2.aliasFor ≠ .freed ∧
    (∀ prop1, found = some prop1 →
      prop1.aliasFor ≠ .freed ∧ (prop2.aliasFor = .null → prop1.aliasFor = .null) ∧
        prop1.presort = prop2.presort ∧ prop1.sortLength = prop2.sortLength) ∧
    (found = none → prop2.presort = true ∧ prop2.sortLength = 0)

/-- Every entry of `c2` can be copied over what `c1` holds under its name. -/
def MergeComplete (c1 c2 : Config) : Prop :=
  (∀ k m, c2.metanames.lookup k = some m → CopiesMetaname (c1.metanames.lookup k) m) ∧
    ∀ k p, c2.properties.lookup k = some p → CopiesProperty (c1.properties.lookup k) p

theorem same_copyMetaname_iff {k : XmlStr} {found : Option MetaName} {meta2 : MetaName} :
    (copyMetaname k found meta2).Same meta2 ↔ CopiesMetaname found meta2 := by
  have hsame : (copyMetaname k found meta2).Same meta2 ↔
      SameText (copyMetaname k found meta2).aliasFor meta2.aliasFor :=
    ⟨fun h => h.aliasFor, fun h => ⟨rfl, rfl, h⟩⟩
  rw [hsame, CopiesMetaname]
  cases found with
  | none => simp [copyMetaname, sameText_copyAlias_iff, metanameInit]
  | some meta1 => simp [copyMetaname, sameText_copyAlias_iff, and_left_comm]

theorem same_copyProperty_iff {k : XmlStr} {found : Option Property} {prop2 : Property} :
    (copyProperty k found prop2).Same prop2 ↔ CopiesProperty found prop2 := by
  have hsame : (copyProperty k found prop2).Same prop2 ↔
      SameText (copyProperty k found prop2).aliasFor prop2.aliasFor ∧
        (copyProperty k found prop2).presort = prop2.presort ∧
          (copyProperty k found prop2).sortLength = prop2.sortLength :=
    ⟨fun h => ⟨h.aliasFor, h.presort, h.sortLength⟩,
      fun h => ⟨rfl, rfl, rfl, rfl, h.1, rfl, rfl, h.2.1, h.2.2⟩⟩
  rw [hsame, CopiesProperty]
  cases found with
  | none =>
      simp [copyProperty, sameText_copyAlias_iff, propertyInit, @eq_comm Bool true,
        @eq_comm Nat 0]
  | some prop1 =>
      simp [copyProperty, sameText_copyAlias_iff, and_assoc, and_left_comm]

/-- The tables of a merge. -/
structure MergedTables (c1 c2 c : Config) : Prop where
  properties : c.properties = mergeWith copyProperty c1.properties c2.properties
  metanames : c.metanames = mergeWith copyMetaname c1.metanames c2.metanames
  parsers : c.parsers = hashMerge c1.parsers c2.parsers
  mimes : c.mimes = hashMerge c1.mimes c2.mimes
  index : c.index = hashMerge c1.index c2.index
  tagAliases : c.tagAliases = hashMerge c1.tagAliases c2.tagAliases
  misc : c.misc = hashMerge c1.misc c2.misc
  stringlists : c.stringlists = mergeWith copyStrlist c1.stringlists c2.stringlists

/-- The flags of a merge. -/
structure MergedFlags (c1 c2 c : Config) : Prop where
  tokenize : directive parseBoolean Swish.tokenize c2.misc c2.flags.tokenize =
    .ok c.flags.tokenize
  cascadeMetaContext : directive parseBoolean Swish.cascadeMetaContext c2.misc
    c2.flags.cascadeMetaContext = .ok c.flags.cascadeMetaContext
  ignoreXmlns : directive parseBoolean Swish.ignoreXmlns c2.misc c2.flags.ignoreXmlns =
    .ok c.flags.ignoreXmlns
  followXinclude : directive parseBoolean Swish.followXinclude c2.misc
    c2.flags.followXinclude = .ok c.flags.followXinclude
  undefMetas : directive parseUndefMetas Swish.undefinedMetatags c2.misc
    c2.flags.undefMetas = .ok c.flags.undefMetas
  undefAttrs : directive parseUndefAttrs Swish.undefinedXmlAttributes c2.misc
    c2.flags.undefAttrs = .ok c.flags.undefAttrs
  maxMetaId : c.flags.maxMetaId = Max.max c1.flags.maxMetaId c2.flags.maxMetaId
  maxPropId : c.flags.maxPropId = Max.max c1.flags.maxPropId c2.flags.maxPropId
  metaIds : c.flags.metaIds = c1.flags.metaIds
  propIds : c.flags.propIds = c1.flags.propIds

/-- What a merge that returns has done. -/
theorem configMerge_ok {c1 c2 c : Config} (h : configMerge c1 c2 = .ok c) :
    MergedTables c1 c2 c ∧ MergedFlags c1 c2 c := by
  unfold configMerge at h
  obtain ⟨tokenize, htokenize, h⟩ := bind_ok_iff.mp h
  obtain ⟨cascade, hcascade, h⟩ := bind_ok_iff.mp h
  obtain ⟨xmlns, hxmlns, h⟩ := bind_ok_iff.mp h
  obtain ⟨xinclude, hxinclude, h⟩ := bind_ok_iff.mp h
  obtain ⟨metas, hmetas, h⟩ := bind_ok_iff.mp h
  obtain ⟨attrs, hattrs, h⟩ := bind_ok_iff.mp h
  cases h
  exact ⟨⟨rfl, rfl, rfl, rfl, rfl, rfl, rfl, rfl⟩,
    ⟨htokenize, hcascade, hxmlns, hxinclude, hmetas, hattrs, rfl, rfl, rfl, rfl⟩⟩

/-- A merge overrides completely exactly when every entry can be copied: `copy_property`
has no assignment for `presort` and `sort_length`, and a released `alias_for` is not set to
NULL. -/
theorem configMerge_overrides_iff {c1 c2 c : Config} (h : configMerge c1 c2 = .ok c) :
    Overrides c1 c2 c ↔ MergeComplete c1 c2 := by
  obtain ⟨hprops, hmetas, hparsers, hmimes, hindex, haliases, hmisc, hlists⟩ :=
    (configMerge_ok h).1
  have hm : Taken MetaName.Same c2.metanames c.metanames ↔ ∀ k m,
      c2.metanames.lookup k = some m → CopiesMetaname (c1.metanames.lookup k) m := by
    rw [hmetas, taken_mergeWith_iff]
    exact forall₃_congr fun k m _ => same_copyMetaname_iff
  have hp : Taken Property.Same c2.properties c.properties ↔ ∀ k p,
      c2.properties.lookup k = some p → CopiesProperty (c1.properties.lookup k) p := by
    rw [hprops, taken_mergeWith_iff]
    exact forall₃_congr fun k p _ => same_copyProperty_iff
  constructor
  · intro ho
    exact ⟨hm.mp ho.metanames, hp.mp ho.properties⟩
  · rintro ⟨hcm, hcp⟩
    exact {
      metanames := hm.mpr hcm
      properties := hp.mpr hcp
      parsers := hparsers ▸ taken_hashMerge _ _
      mimes := hmimes ▸ taken_hashMerge _ _
      index := hindex ▸ taken_hashMerge _ _
      tagAliases := haliases ▸ taken_hashMerge _ _
      misc := hmisc ▸ taken_hashMerge _ _
      metanames_kept := hmetas ▸ kept_mergeWith _ _ _
      properties_kept := hprops ▸ kept_mergeWith _ _ _
      parsers_kept := hparsers ▸ kept_mergeWith _ _ _
      mimes_kept := hmimes ▸ kept_mergeWith _ _ _
      index_kept := hindex ▸ kept_mergeWith _ _ _
      tagAliases_kept := haliases ▸ kept_mergeWith _ _ _
      misc_kept := hmisc ▸ kept_mergeWith _ _ _
      stringlists_kept := hlists ▸ kept_mergeWith _ _ _ }

/-- What `<PropertyNames><foo presort="0" sort_length="20"/></PropertyNames>` is read as. -/
def unsortedFoo : Config :=
  { configInit with
    properties := (∅ : HashTable Property).insert (lit "foo")
      { propertyInit (lit "foo") with
        id := Swish.propThisMustComeLastId, presort := false, sortLength := 20 } }

/-- The default config has no `foo`, so the merge makes one, and leaves its `presort` at the
default. -/
theorem configMerge_drops_presort :
    ¬ ∀ c1 c2 c, configMerge c1 c2 = .ok c → Overrides c1 c2 c := by
  intro h
  have hov := h (configSetDefault (lit "C")) unsortedFoo _ rfl
  obtain ⟨prop, hlook, hsame⟩ := hov.properties (lit "foo") _ rfl
  have hfound : prop.presort = true := by
    rw [← Option.some.inj hlook]
    rfl
  rw [hsame.presort] at hfound
  exact absurd hfound (by decide)

/-- Merging that file is one of the incomplete merges. -/
theorem configMerge_overrides_unsortedFoo :
    ∃ c, configMerge (configSetDefault (lit "C")) unsortedFoo = .ok c ∧
      (Overrides (configSetDefault (lit "C")) unsortedFoo c ↔
        MergeComplete (configSetDefault (lit "C")) unsortedFoo) :=
  ⟨_, rfl, configMerge_overrides_iff rfl⟩

end LibSwish3
