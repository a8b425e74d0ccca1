import LibSwish3.MergedConfigs

/-!
# The round trip of a header

`swish_header_write` and `swish_header_merge` are to be inverse to each other: what is written for
a config that was merged from header files brings that config back, when it is merged into a fresh
default config.

Two things stand against it.  Some entries are written so that they are not read back, or stop the
reader: `Legible` excludes these.  And some things are not written at all: the string lists, the
largest ids, and all of an alias but its id and the name it stands for.  A flag is not written
either, but read again from its directive.  `Restorable` says that nothing of the kind is lost, and
decides the matter for every legible config.

## Main definitions

* `SameHeader` — two configs that agree in everything a header is to keep.
* `RoundTrips` — writing, reading and merging brings the config back.
* `Legible`, `Restorable` — the conditions.
* `mergeFiles_roundTrips_iff`.
-/

namespace LibSwish3

open Runs Tables

/-! ## The round trip -/

/-- Two Properties agree; of an alias only the id and the name it stands for count. -/
structure Property.SameWritten (prop1 prop2 : Property) : Prop where
  id : prop1.id = prop2.id
  aliasFor : SameText prop1.aliasFor prop2.aliasFor
  rest : prop2.aliasFor = .null → prop1.Same prop2

/-- What comes back of a MetaName. -/
structure MetaName.Restored (meta1 meta2 : MetaName) : Prop where
  id : meta1.id = meta2.id
  aliasFor : SameText meta1.aliasFor meta2.aliasFor
  bias : meta2.aliasFor = .null → meta1.bias = meta2.bias
  alias_bias : meta2.aliasFor ≠ .null → meta1.bias = 0

/-- The two versions are not part of a config. -/
def IsVersionKey (key : XmlStr) : Prop := key = Swish.versionKey ∨ key = Swish.libVersionKey

instance (key : XmlStr) : Decidable (IsVersionKey key) := inferInstanceAs (Decidable (_ ∨ _))

/-- The two configs agree in all tables and in the flags. -/
structure SameHeader (c1 c2 : Config) : Prop where
  metanames : ∀ k, Option.Rel MetaName.Same (c1.metanames.lookup k) (c2.metanames.lookup k)
  properties : ∀ k,
    Option.Rel Property.SameWritten (c1.properties.lookup k) (c2.properties.lookup k)
  parsers : ∀ k, c1.parsers.lookup k = c2.parsers.lookup k
  mimes : ∀ k, c1.mimes.lookup k = c2.mimes.lookup k
  index : ∀ k, c1.index.lookup k = c2.index.lookup k
  tagAliases : ∀ k, c1.tagAliases.lookup k = c2.tagAliases.lookup k
  stringlists : ∀ k, c1.stringlists.lookup k = c2.stringlists.lookup k
  misc : ∀ k, ¬ IsVersionKey k → c1.misc.lookup k = c2.misc.lookup k
  flags : c1.flags = c2.flags

/-- A header is written for `c`, and merging the file into a fresh default config brings `c`
back, whatever the file is called and however it is indented. -/
def RoundTrips (loc : Locale) (libVersion : XmlStr) (c : Config) : Prop :=
  ∃ parts, headerWrite libVersion c = .ok parts ∧
    ∀ (env : HeaderEnv) (fuel : Nat) (lcCtype filename confFile : XmlStr) (reader : Reader),
      env.loc = loc → openReader env filename = .ok (confFile, reader) →
      WrittenFile parts reader →
        ∃ c', headerMerge env (fuel + 1) filename (configSetDefault lcCtype) = .ok c' ∧
          SameHeader c' c

/-- Every entry of the config is written so that it is read back as an entry. -/
structure Legible (loc : Locale) (c : Config) : Prop where
  metanames : Each (fun k m => IsTag k ∧ k ≠ Swish.headerRoot ∧ m.id ≠ -1) c.metanames
  properties : Each (fun k p => IsTag k ∧ k ≠ Swish.headerRoot ∧ p.id ≠ -1 ∧
    (p.aliasFor = .null → 0 ≤ p.type)) c.properties
  ids : UniqueIds c
  parsers : Each (fun k v => WordReads loc k ∧ IsTag v) c.parsers
  tagAliases : Each (fun k v => WordReads loc k ∧ IsTag v) c.tagAliases
  index : Each (fun k v => IsTag k ∧ strAllWs v = false) c.index
  mimes : Each (fun k _ => IsTag k) c.mimes
  misc : Each (fun k _ => IsTag k) c.misc

/-- What is not written has the value it gets back. -/
structure Restorable (c : Config) : Prop where
  bias : Each (fun _ m => m.aliasFor ≠ .null → m.bias = 0) c.metanames
  stringlists : c.stringlists = ∅
  flags : FlagsFollow c
  maxMetaId : c.flags.maxMetaId = Swish.metaTitleId
  maxPropId : c.flags.maxPropId = Swish.propDescriptionId

/-! ## Legible configs are read back -/

section Reread

variable {loc : Locale} {c c₀ : Config} {name : XmlStr}

/-- The names of the sections are not in lower case. -/
theorem unreserved_of_lower (hlower : strTolower loc name = .ok name)
    (hroot : name ≠ Swish.headerRoot) : Unreserved name := by
  have hne : ∀ s : XmlStr, isAscii s = true → asciiStrTolower s ≠ s → name ≠ s := by
    rintro s hs hcase rfl
    rw [strTolower, if_pos hs, Except.ok.injEq] at hlower
    exact hcase hlower
  refine ⟨hroot, hne _ (by decide) (by decide), ?_⟩
  rw [sectionOf, if_neg (hne _ (by decide) (by decide)), if_neg (hne _ (by decide) (by decide)),
    if_neg (hne _ (by decide) (by decide)), if_neg (hne _ (by decide) (by decide)),
    if_neg (hne _ (by decide) (by decide)), if_neg (hne _ (by decide) (by decide))]

/-- The alias tests read every alias. -/
theorem not_freed_of_tested (htest : configTestAliasFors c = .ok ()) :
    Each (fun _ m => m.aliasFor ≠ .freed) c.metanames ∧
      Each (fun _ p => p.aliasFor ≠ .freed) c.properties := by
  obtain ⟨⟨⟩, hmetas, hprops⟩ := bind_ok_iff.mp htest
  refine ⟨fun k m hk hfreed => ?_, fun k p hk hfreed => ?_⟩
  · have hone := scanM_ok_iff.mp hmetas k m hk
    rw [testMetaAliasFor, hfreed] at hone
    cases hone
  · have hone := scanM_ok_iff.mp hprops k p hk
    rw [testPropAliasFor, hfreed] at hone
    cases hone

theorem Legible.rereadable (h : Legible loc c) (hsound : SoundTables loc c)
    (hfrom : FromDefault c₀ c) : Rereadable loc c where
  metanames k m hk := by
    obtain ⟨htag, hroot, hid⟩ := h.metanames k m hk
    have hm := hsound.metanames k m hk
    exact ⟨⟨unreserved_of_lower hm.lower hroot, htag.2⟩, htag.1, hm.lower, hm.id, hid, hm.bias,
      hm.target, (not_freed_of_tested hfrom.tested).1 k m hk⟩
  properties k p hk := by
    obtain ⟨htag, hroot, hid, htype⟩ := h.properties k p hk
    have hp := hsound.properties k p hk
    exact ⟨⟨unreserved_of_lower hp.lower hroot, htag.2⟩, htag.1, hp.lower, hp.id, hid,
      fun hnull => ⟨hp.type, htype hnull⟩, hp.max, hp.sortLength, hp.target,
      (not_freed_of_tested hfrom.tested).2 k p hk⟩
  metaIds := h.ids.metanames
  propIds := h.ids.properties
  parsers k v hk := by
    obtain ⟨hword, htag⟩ := h.parsers k v hk
    exact ⟨⟨hsound.parsers k v hk, htag.2⟩, htag.1, hword⟩
  tagAliases k v hk := by
    obtain ⟨hword, htag⟩ := h.tagAliases k v hk
    exact ⟨⟨hsound.tagAliases k v hk, htag.2⟩, htag.1, hword⟩
  index k v hk := by
    obtain ⟨htag, hblank⟩ := h.index k v hk
    exact ⟨⟨hsound.index k v hk, htag.2⟩, htag.1, hblank⟩
  mimes k v hk := by
    obtain ⟨hlook, hwrites⟩ := lookup_restrict_eq_some_iff.mp hk
    obtain ⟨hname, hblank⟩ := hsound.mimes k v hlook hwrites
    have htag := h.mimes k v hlook
    exact ⟨⟨hname, htag.2⟩, htag.1, hblank⟩
  misc k v hk := by
    obtain ⟨hname, hclass, hblank⟩ := hsound.misc k v hk
    have htag := h.misc k v hk
    exact ⟨⟨hsound.modes k v hk, ⟨hname, htag.2⟩, hclass, hblank⟩, htag.1⟩

end Reread

/-! ## Merging what was read -/

section Tables

variable {t t₀ : HashTable XmlStr}

/-- A table that is merged over some of its keys is restored. -/
theorem lookup_restored (hkeys : ∀ k ∈ t₀, k ∈ t) (k : XmlStr) :
    (hashMerge t₀ (hashMerge ∅ t)).lookup k = t.lookup k := by
  have hread : (hashMerge ∅ t).lookup k = t.lookup k := by
    rw [hashMerge, lookup_mergeWith_empty, Option.map_id']
  rw [hashMerge, lookup_mergeWith, hread]
  cases hk : t.lookup k with
  | some v => rfl
  | none =>
      have hnot : k ∉ t₀ := fun hmem => AList.lookup_eq_none.mp hk (hkeys k hmem)
      exact AList.lookup_eq_none.mpr hnot

/-- The MIME types that are not written are those of the default config. -/
theorem lookup_mimes_restored (hkeys : ∀ k ∈ mimeDefaults, k ∈ t) (k : XmlStr) :
    (hashMerge mimeDefaults (hashMerge ∅ (restrict writesMime t))).lookup k = t.lookup k := by
  have hread : (hashMerge ∅ (restrict writesMime t)).lookup k =
      (restrict writesMime t).lookup k := by
    rw [hashMerge, lookup_mergeWith_empty, Option.map_id']
  rw [hashMerge, lookup_mergeWith, hread]
  cases hk : t.lookup k with
  | none =>
      have hnot : k ∉ mimeDefaults := fun hmem => AList.lookup_eq_none.mp hk (hkeys k hmem)
      have hrestrict : (restrict writesMime t).lookup k = none := by
        rw [Option.eq_none_iff_forall_ne_some]
        intro v hv
        rw [(lookup_restrict_eq_some_iff.mp hv).1] at hk
        cases hk
      rw [hrestrict]
      exact AList.lookup_eq_none.mpr hnot
  | some v =>
      by_cases hwrites : writesMime k v = true
      · rw [lookup_restrict_eq_some_iff.mpr ⟨hk, hwrites⟩]
      · have hrestrict : (restrict writesMime t).lookup k = none := by
          rw [Option.eq_none_iff_forall_ne_some]
          intro w hw
          obtain ⟨hw, hwritten⟩ := lookup_restrict_eq_some_iff.mp hw
          cases hk.symm.trans hw
          exact hwrites hwritten
        rw [hrestrict]
        simp only [writesMime, decide_eq_true_eq, not_or, not_not] at hwrites
        exact hwrites.2

theorem lookup_storeMisc {es : List (Sigma fun _ : XmlStr => XmlStr)} {k : XmlStr}
    (h : ∀ e ∈ es, e.1 ≠ k) : (storeMisc t es).lookup k = t.lookup k := by
  induction es generalizing t with
  | nil => rfl
  | cons e es ih =>
      rw [storeMisc, List.foldl_cons, ← storeMisc, ih fun f hf => h f (List.mem_cons_of_mem e hf)]
      exact AList.lookup_insert_ne (h e List.mem_cons_self).symm

/-- Beside the versions nothing is added to the directives. -/
theorem lookup_misc_reread {libVersion : XmlStr} {c : Config} {k : XmlStr}
    (hk : ¬ IsVersionKey k) :
    (hashMerge (storeMisc ∅ (versionEntries libVersion c)) c.misc).lookup k = c.misc.lookup k := by
  rw [hashMerge, lookup_mergeWith]
  cases c.misc.lookup k with
  | some v => rfl
  | none =>
      refine lookup_storeMisc fun e he => ?_
      have hmem := (List.mem_filter.mp he).1
      simp only [List.mem_cons, List.not_mem_nil, or_false] at hmem
      rintro rfl
      rcases hmem with rfl | rfl
      · exact hk (.inl rfl)
      · exact hk (.inr rfl)

end Tables

section Merge

variable {c c' config : Config} {libVersion lcCtype : XmlStr}

/-- The default names are no aliases. -/
theorem defaults_null (lcCtype : XmlStr) :
    Each (fun _ m => m.aliasFor = .null) (configSetDefault lcCtype).metanames ∧
      Each (fun _ p => p.aliasFor = .null ∧ p.presort = true ∧ p.sortLength = 0)
        (configSetDefault lcCtype).properties := by
  refine ⟨(each_empty.insert ?_).insert ?_, (each_empty.insert ?_).insert ?_⟩
  · rfl
  · rfl
  · exact ⟨rfl, rfl, rfl⟩
  · exact ⟨rfl, rfl, rfl⟩

/-- A MetaName that was read back is merged as it was; an alias has no bias. -/
theorem restored_metaname {k : XmlStr} {found : Option MetaName} {m : MetaName}
    (hfound : ∀ m₀, found = some m₀ → m₀.aliasFor = .null) (hfreed : m.aliasFor ≠ .freed) :
    (copyMetaname k found (rereadMetaname k m)).Restored m := by
  have hcopied : ∀ m₁ : MetaName, m₁.aliasFor ≠ .freed → (copyMetaname k found m₁).Same m₁ := by
    intro m₁ hm₁
    refine same_copyMetaname_iff.mpr ⟨hm₁, fun m₀ hm₀ => ?_⟩
    rw [hfound m₀ hm₀]
    exact ⟨by decide, fun _ => rfl⟩
  cases halias : m.aliasFor with
  | freed => exact absurd halias hfreed
  | null =>
      rw [rereadMetaname_null halias]
      have hsame := hcopied { m with name := k, aliasFor := .null } (by simp)
      exact ⟨hsame.id, halias ▸ hsame.aliasFor, fun _ => hsame.bias,
        fun hne => absurd halias hne⟩
  | live target =>
      rw [rereadMetaname_live halias]
      have hsame := hcopied { metanameInit k with id := m.id, aliasFor := .live target } (by simp)
      refine ⟨hsame.id, halias ▸ hsame.aliasFor, fun hnull => ?_, fun _ => hsame.bias⟩
      rw [hnull] at halias
      cases halias

/-- A Property that was read back is merged as it was; of an alias the id and the name it stands
for. -/
theorem restored_property {k : XmlStr} {found : Option Property} {p : Property}
    (hfound : ∀ p₀, found = some p₀ →
      p₀.aliasFor = .null ∧ p₀.presort = true ∧ p₀.sortLength = 0)
    (hp : p.presort = true ∧ p.sortLength = 0) (hfreed : p.aliasFor ≠ .freed) :
    (copyProperty k found (rereadProperty k p)).SameWritten p := by
  cases halias : p.aliasFor with
  | freed => exact absurd halias hfreed
  | null =>
      have hsame : (copyProperty k found (rereadProperty k p)).Same (rereadProperty k p) := by
        refine same_copyProperty_iff.mpr ?_
        rw [rereadProperty_null halias]
        refine ⟨by simp, fun p₀ hp₀ => ?_, fun _ => hp⟩
        obtain ⟨hnull, hpresort, hlength⟩ := hfound p₀ hp₀
        rw [hnull, hpresort, hlength, hp.1, hp.2]
        exact ⟨by decide, fun _ => rfl, rfl, rfl⟩
      rw [rereadProperty_null halias] at hsame ⊢
      have hall : (copyProperty k found { p with name := k, aliasFor := .null }).Same p :=
        ⟨hsame.id, hsame.ignoreCase, hsame.type, hsame.verbatim, halias ▸ hsame.aliasFor, hsame.max,
          hsame.sort, hsame.presort, hsame.sortLength⟩
      exact ⟨hall.id, hall.aliasFor, fun _ => hall⟩
  | live target =>
      rw [rereadProperty_live halias]
      refine ⟨rfl, ?_, fun hnull => by rw [hnull] at halias; cases halias⟩
      rw [halias]
      refine sameText_copyAlias_iff.mpr ⟨?_, by simp, fun h => by cases h⟩
      cases found with
      | none => simp [propertyInit]
      | some p₀ => simp [(hfound p₀ rfl).1]

/-- The MetaNames are restored. -/
theorem metanames_restored {metanames : HashTable MetaName}
    (hfreed : Each (fun _ m => m.aliasFor ≠ .freed) metanames)
    (hkeys : ∀ k ∈ (configSetDefault lcCtype).metanames, k ∈ metanames) (k : XmlStr) :
    Option.Rel MetaName.Restored
      ((mergeWith copyMetaname (configSetDefault lcCtype).metanames
        (mergeWith (fun k _ m => rereadMetaname k m) ∅ metanames)).lookup k)
      (metanames.lookup k) := by
  rw [lookup_mergeWith, lookup_mergeWith_empty]
  cases hk : metanames.lookup k with
  | some m =>
      exact .some (restored_metaname ((defaults_null lcCtype).1 k) (hfreed k m hk))
  | none =>
      have hnone : (configSetDefault lcCtype).metanames.lookup k = none :=
        AList.lookup_eq_none.mpr fun hmem => AList.lookup_eq_none.mp hk (hkeys k hmem)
      rw [Option.map_none, hnone]
      exact .none

/-- The Properties are restored. -/
theorem properties_restored {properties : HashTable Property}
    (hfreed : Each (fun _ p => p.aliasFor ≠ .freed) properties)
    (hpresort : Each (fun _ p => p.presort = true ∧ p.sortLength = 0) properties)
    (hkeys : ∀ k ∈ (configSetDefault lcCtype).properties, k ∈ properties) (k : XmlStr) :
    Option.Rel Property.SameWritten
      ((mergeWith copyProperty (configSetDefault lcCtype).properties
        (mergeWith (fun k _ p => rereadProperty k p) ∅ properties)).lookup k)
      (properties.lookup k) := by
  rw [lookup_mergeWith, lookup_mergeWith_empty]
  cases hk : properties.lookup k with
  | some p =>
      exact .some (restored_property ((defaults_null lcCtype).2 k) (hpresort k p hk)
        (hfreed k p hk))
  | none =>
      have hnone : (configSetDefault lcCtype).properties.lookup k = none :=
        AList.lookup_eq_none.mpr fun hmem => AList.lookup_eq_none.mp hk (hkeys k hmem)
      rw [Option.map_none, hnone]
      exact .none

/-! ## Flags -/

/-- A directive of the config that is read gives the flag the directive of `c` gives. -/
theorem directive_reread {F : Type} {parse : XmlStr → Swish F} {key : XmlStr} {f dflt : F}
    (hmisc : config.misc.lookup key = c.misc.lookup key)
    (hidle : config.misc.lookup key = none → f = dflt) :
    directive parse key config.misc f = directive parse key c.misc dflt := by
  cases hkey : c.misc.lookup key with
  | none => rw [directive_of_none (hmisc.trans hkey), directive_of_none hkey,
      hidle (hmisc.trans hkey)]
  | some v => rw [directive_of_some (hmisc.trans hkey), directive_of_some hkey]

/-- The flags of the merged config follow the directives of `c`. -/
theorem flagsFollow_restored {d : Config} (hidle : FlagsIdle config)
    (hmisc : ∀ k, ¬ IsVersionKey k → config.misc.lookup k = c.misc.lookup k)
    (h : MergedFlags d config c') : FlagsFollow { c with flags := c'.flags } where
  tokenize := (directive_reread (hmisc _ (by decide)) hidle.tokenize).symm.trans h.tokenize
  cascadeMetaContext := (directive_reread (hmisc _ (by decide)) hidle.cascadeMetaContext).symm.trans
    h.cascadeMetaContext
  ignoreXmlns :=
    (directive_reread (hmisc _ (by decide)) hidle.ignoreXmlns).symm.trans h.ignoreXmlns
  followXinclude :=
    (directive_reread (hmisc _ (by decide)) hidle.followXinclude).symm.trans h.followXinclude
  undefMetas :=
    (directive_reread (hmisc _ (by decide)) hidle.undefMetas).symm.trans h.undefMetas
  undefAttrs :=
    (directive_reread (hmisc _ (by decide)) hidle.undefAttrs).symm.trans h.undefAttrs

/-- The directives of the config that is read are known. -/
theorem knownModes_reread (hmodes : Each ModeKnown c.misc)
    (hmisc : ∀ k, ¬ IsVersionKey k → config.misc.lookup k = c.misc.lookup k) :
    knownModes config = true := by
  obtain ⟨metas, hmetas⟩ := directive_returns config.flags.undefMetas fun v hv =>
    (hmodes _ v ((hmisc Swish.undefinedMetatags (by decide)).symm.trans hv)).undefMetas rfl
  obtain ⟨attrs, hattrs⟩ := directive_returns config.flags.undefAttrs fun v hv =>
    (hmodes _ v ((hmisc Swish.undefinedXmlAttributes (by decide)).symm.trans hv)).undefAttrs rfl
  rw [knownModes, hmetas, hattrs]
  rfl

/-- Flags that follow the same directives differ in the ids at most. -/
theorem flags_eq_of_follow {flags : ConfigFlags} (h : FlagsFollow { c with flags })
    (hc : FlagsFollow c) (hids : c.flags.SameIds flags) : flags = c.flags := by
  have htokenize := Except.ok.inj (h.tokenize.symm.trans hc.tokenize)
  have hcascade := Except.ok.inj (h.cascadeMetaContext.symm.trans hc.cascadeMetaContext)
  have hxmlns := Except.ok.inj (h.ignoreXmlns.symm.trans hc.ignoreXmlns)
  have hinclude := Except.ok.inj (h.followXinclude.symm.trans hc.followXinclude)
  have hmetas := Except.ok.inj (h.undefMetas.symm.trans hc.undefMetas)
  have hattrs := Except.ok.inj (h.undefAttrs.symm.trans hc.undefAttrs)
  obtain ⟨hmaxMeta, hmaxProp, hmetaIds, hpropIds⟩ := hids
  cases flags
  simp only at htokenize hcascade hxmlns hinclude hmetas hattrs hmaxMeta hmaxProp hmetaIds hpropIds
  simp only [htokenize, hcascade, hxmlns, hinclude, hmetas, hattrs, hmaxMeta, hmaxProp, hmetaIds,
    hpropIds]

/-! ## Alias targets -/

theorem SameText.read_eq {p q : CPtr XmlStr} (h : SameText p q) : p.read = q.read := by
  obtain ⟨t, hp, hq⟩ := h
  rw [hp, hq]

section Related

variable {α : Type} {R : α → α → Prop} {t₁ t₂ : HashTable α}

theorem exists_of_rel {a : α} {o : Option α} (h : Option.Rel R (some a) o) :
    ∃ b, o = some b ∧ R a b := by
  cases h with
  | some hab => exact ⟨_, rfl, hab⟩

theorem exists_of_rel_right {b : α} {o : Option α} (h : Option.Rel R o (some b)) :
    ∃ a, o = some a ∧ R a b := by
  cases h with
  | some hab => exact ⟨_, rfl, hab⟩

theorem mem_iff_of_rel (h : ∀ k, Option.Rel R (t₁.lookup k) (t₂.lookup k)) (k : XmlStr) :
    k ∈ t₁ ↔ k ∈ t₂ := by
  have hk := h k
  rw [mem_iff_exists_lookup, mem_iff_exists_lookup]
  constructor
  · rintro ⟨a, ha⟩
    rw [ha] at hk
    obtain ⟨b, hb, -⟩ := exists_of_rel hk
    exact ⟨b, hb⟩
  · rintro ⟨b, hb⟩
    rw [hb] at hk
    obtain ⟨a, ha, -⟩ := exists_of_rel_right hk
    exact ⟨a, ha⟩

/-- A scan that returns does so for related entries. -/
theorem scanM_of_rel {f g : XmlStr → α → Swish Unit}
    (h : ∀ k, Option.Rel R (t₁.lookup k) (t₂.lookup k))
    (hfg : ∀ k a b, R a b → f k a = g k b) (hscan : scanM g t₂ = .ok ()) :
    scanM f t₁ = .ok () := by
  refine scanM_ok_iff.mpr fun k a ha => ?_
  have hk := h k
  rw [ha] at hk
  obtain ⟨b, hb, hab⟩ := exists_of_rel hk
  exact (hfg k a b hab).trans (scanM_ok_iff.mp hscan k b hb)

end Related

/-- Without an entry only the builtin ids count. -/
theorem propertyGetId_of_notMem {t₁ t₂ : HashTable Property} {name : XmlStr} (h₁ : name ∉ t₁)
    (h₂ : name ∉ t₂) : propertyGetId name t₁ = propertyGetId name t₂ := by
  rw [propertyGetId, propertyGetId, AList.lookup_eq_none.mpr h₁, AList.lookup_eq_none.mpr h₂]

theorem testPropAliasFor_congr {k : XmlStr} {p p' : Property}
    (hread : p'.aliasFor.read = p.aliasFor.read)
    (hmem : ∀ name, name ∈ c'.properties ↔ name ∈ c.properties) :
    testPropAliasFor c' k p' = testPropAliasFor c k p := by
  rw [testPropAliasFor, testPropAliasFor, hread]
  cases p.aliasFor.read with
  | error e => rfl
  | ok target =>
      cases target with
      | none => rfl
      | some target =>
          by_cases htarget : target ∈ c.properties
          · simp only [ok_bind, hmem, htarget, if_true]
          · have hsame := propertyGetId_of_notMem (mt (hmem target).mp htarget) htarget
            simp only [ok_bind, hmem, htarget, if_false, hsame]

/-- The alias tests look at names and targets only. -/
theorem configTestAliasFors_restored
    (hmetas : ∀ k, Option.Rel MetaName.Restored (c'.metanames.lookup k) (c.metanames.lookup k))
    (hprops : ∀ k,
      Option.Rel Property.SameWritten (c'.properties.lookup k) (c.properties.lookup k))
    (htest : configTestAliasFors c = .ok ()) : configTestAliasFors c' = .ok () := by
  obtain ⟨⟨⟩, htestMetas, htestProps⟩ := bind_ok_iff.mp htest
  refine bind_ok_iff.mpr ⟨(), scanM_of_rel hmetas (fun k m' m hsame => ?_) htestMetas,
    scanM_of_rel hprops (fun k p' p hsame => ?_) htestProps⟩
  · simp only [testMetaAliasFor, hsame.aliasFor.read_eq, mem_iff_of_rel hmetas]
  · exact testPropAliasFor_congr hsame.aliasFor.read_eq (mem_iff_of_rel hprops)

end Merge

/-! ## The merged config -/

/-- What merging the header of `c` gives. -/
structure Restored (c' c : Config) : Prop where
  metanames : ∀ k, Option.Rel MetaName.Restored (c'.metanames.lookup k) (c.metanames.lookup k)
  properties : ∀ k,
    Option.Rel Property.SameWritten (c'.properties.lookup k) (c.properties.lookup k)
  parsers : ∀ k, c'.parsers.lookup k = c.parsers.lookup k
  mimes : ∀ k, c'.mimes.lookup k = c.mimes.lookup k
  index : ∀ k, c'.index.lookup k = c.index.lookup k
  tagAliases : ∀ k, c'.tagAliases.lookup k = c.tagAliases.lookup k
  stringlists : ∀ k, c'.stringlists.lookup k = none
  misc : ∀ k, ¬ IsVersionKey k → c'.misc.lookup k = c.misc.lookup k
  flags : FlagsFollow { c with flags := c'.flags }
  maxMetaId : c'.flags.maxMetaId = Swish.metaTitleId
  maxPropId : c'.flags.maxPropId = Swish.propDescriptionId
  metaIds : c'.flags.metaIds = c.flags.metaIds
  propIds : c'.flags.propIds = c.flags.propIds

section RoundTrip

variable {loc : Locale} {c c' config : Config} {libVersion lcCtype : XmlStr}

/-- The config comes back exactly if nothing is lost that is not written. -/
theorem Restored.sameHeader_iff (h : Restored c' c) : SameHeader c' c ↔ Restorable c := by
  constructor
  · intro hsame
    have hflags : FlagsFollow c := by
      have hfollow := h.flags
      rw [hsame.flags] at hfollow
      exact hfollow
    refine ⟨fun k m hk hne => ?_, eq_empty_of_lookup fun k => ?_, hflags,
      hsame.flags ▸ h.maxMetaId, hsame.flags ▸ h.maxPropId⟩
    · obtain ⟨m', hk', hm'⟩ := exists_of_rel_right (hk ▸ hsame.metanames k)
      obtain ⟨_, hk'', hback⟩ := exists_of_rel_right (hk ▸ h.metanames k)
      cases hk'.symm.trans hk''
      exact hm'.bias.symm.trans (hback.alias_bias hne)
    · rw [← hsame.stringlists, h.stringlists]
  · intro hr
    refine ⟨fun k => ?_, h.properties, h.parsers, h.mimes, h.index, h.tagAliases, fun k => ?_,
      h.misc, ?_⟩
    · have hback := h.metanames k
      cases hk : c.metanames.lookup k with
      | none =>
          rw [hk] at hback
          cases hk' : c'.metanames.lookup k with
          | none => exact .none
          | some m' => rw [hk'] at hback; cases hback
      | some m =>
          obtain ⟨m', hk', hm⟩ := exists_of_rel_right (hk ▸ hback)
          rw [hk']
          refine .some ⟨hm.id, ?_, hm.aliasFor⟩
          by_cases hnull : m.aliasFor = .null
          · exact hm.bias hnull
          · exact (hm.alias_bias hnull).trans (hr.bias k m hk hnull).symm
    · rw [h.stringlists, hr.stringlists]
      rfl
    · exact flags_eq_of_follow h.flags hr.flags ⟨h.maxMetaId.trans hr.maxMetaId.symm,
        h.maxPropId.trans hr.maxPropId.symm, h.metaIds, h.propIds⟩

/-- The default configs differ in the locale of the index only. -/
theorem FromDefault.keysWithin {lcCtype' : XmlStr} (h : FromDefault (configSetDefault lcCtype) c) :
    KeysWithin (configSetDefault lcCtype') c where
  metanames := h.metanames
  properties := h.properties
  parsers := h.parsers
  mimes := h.mimes
  index k hk := by
    refine h.index k ?_
    simpa [configSetDefault, AList.mem_insert] using hk
  tagAliases := h.tagAliases

theorem FromDefault.closed (h : FromDefault (configSetDefault lcCtype) c) :
    c.tagAliases.entries ≠ [] := by
  intro hnil
  have hmem : Swish.titleTag ∈ c.tagAliases :=
    h.tagAliases _ (by decide : Swish.titleTag ∈ (configSetDefault []).tagAliases)
  obtain ⟨v, hv⟩ := mem_iff_exists_lookup.mp hmem
  rw [← mem_entries_iff, hnil] at hv
  cases hv

/-- Merging what was read into a default config. -/
theorem restored_of_reread {lcCtype' : XmlStr} (hfrom : FromDefault (configSetDefault lcCtype) c)
    (hread : RereadFrom libVersion c config) (hidle : FlagsIdle config)
    (hmerged : configMerge (configSetDefault lcCtype') config = .ok c') : Restored c' c := by
  obtain ⟨htables, hflags⟩ := configMerge_ok hmerged
  have hkeys : KeysWithin (configSetDefault lcCtype') c := hfrom.keysWithin
  obtain ⟨hmetaFreed, hpropFreed⟩ := not_freed_of_tested hfrom.tested
  have hmisc : ∀ k, ¬ IsVersionKey k → config.misc.lookup k = c.misc.lookup k := by
    intro k hk
    rw [hread.misc, lookup_misc_reread hk]
  exact {
    metanames := by
      rw [htables.metanames, hread.metanames]
      exact metanames_restored hmetaFreed hkeys.metanames
    properties := by
      rw [htables.properties, hread.properties]
      exact properties_restored hpropFreed hfrom.presort hkeys.properties
    parsers := by
      rw [htables.parsers, hread.parsers]
      exact lookup_restored hkeys.parsers
    mimes := by
      rw [htables.mimes, hread.mimes]
      exact lookup_mimes_restored hkeys.mimes
    index := by
      rw [htables.index, hread.index]
      exact lookup_restored hkeys.index
    tagAliases := by
      rw [htables.tagAliases, hread.tagAliases]
      exact lookup_restored hkeys.tagAliases
    stringlists := by
      rw [htables.stringlists, hread.stringlists]
      exact fun _ => rfl
    misc := by
      intro k hk
      rw [htables.misc, ← hmisc k hk, hashMerge]
      exact lookup_mergeWith_empty.trans Option.map_id'
    flags := flagsFollow_restored hidle hmisc hflags
    maxMetaId := by
      rw [hflags.maxMetaId, hread.maxMetaId]
      rfl
    maxPropId := by
      rw [hflags.maxPropId, hread.maxPropId]
      rfl
    metaIds := hflags.metaIds.trans hfrom.metaIds.symm
    propIds := hflags.propIds.trans hfrom.propIds.symm }

/-- The file that is written for a legible config can be merged. -/
theorem headerMerge_restored {env : HeaderEnv} {filename confFile : XmlStr} {reader : Reader}
    (fuel : Nat) (lcCtype' : XmlStr) (hsound : SoundTables env.loc c)
    (hfrom : FromDefault (configSetDefault lcCtype) c) (hlegible : Legible env.loc c)
    (hversion : strAllWs libVersion = false)
    (hopen : openReader env filename = .ok (confFile, reader))
    (hfile : WrittenFile (headerParts libVersion c) reader) :
    ∃ c', headerMerge env (fuel + 1) filename (configSetDefault lcCtype') = .ok c' ∧
      Restored c' c := by
  have hreread := hlegible.rereadable hsound hfrom
  obtain ⟨config, hread, hfromRead⟩ := readHeader_reread (headerMerge env fuel) hreread hversion
    hfrom.closed hopen hfile
  have hmisc : ∀ k, ¬ IsVersionKey k → config.misc.lookup k = c.misc.lookup k := by
    intro k hk
    rw [hfromRead.misc, lookup_misc_reread hk]
  have hreturns : ∃ c', configMerge (configSetDefault lcCtype') config = .ok c' :=
    configMerge_returns_iff.mpr (knownModes_reread hsound.modes hmisc)
  obtain ⟨c', hmerged⟩ := hreturns
  have hrestored := restored_of_reread hfrom hfromRead (flagsIdle_headerRead hread) hmerged
  have hfree : configFree (configSetDefault lcCtype') config = .ok () :=
    configFree_of_unshared fun key hkey => by
      rw [hfromRead.stringlists] at hkey
      exact absurd hkey (AList.notMem_empty key)
  have htest : configTestAliasFors c' = .ok () :=
    configTestAliasFors_restored hrestored.metanames hrestored.properties hfrom.tested
  refine ⟨c', ?_, hrestored⟩
  rw [headerMerge, hread, ok_bind, hmerged, ok_bind, hfree, ok_bind, htest]
  rfl

/-- The header of a legible config brings it back exactly if nothing is lost that is not
written. -/
theorem roundTrips_iff (hsound : SoundTables loc c)
    (hfrom : FromDefault (configSetDefault lcCtype) c) (hlegible : Legible loc c)
    (hversion : strAllWs libVersion = false) : RoundTrips loc libVersion c ↔ Restorable c := by
  have hparts := headerWrite_ok libVersion (hlegible.rereadable hsound hfrom).toEntriesRead
  constructor
  · rintro ⟨parts, hwrite, hmerges⟩
    cases hwrite.symm.trans hparts
    let env : HeaderEnv :=
      { HeaderEnv.oneFile (writtenReader (headerParts libVersion c)) with loc }
    obtain ⟨c', hmerge, hsame⟩ := hmerges env 0 [] [] [] _ rfl rfl (writtenFile_writtenReader _)
    have hopen : openReader env [] = .ok ([], writtenReader (headerParts libVersion c)) := rfl
    obtain ⟨_, hmerge', hrestored⟩ := headerMerge_restored 0 [] hsound hfrom hlegible hversion hopen
      (writtenFile_writtenReader _)
    cases hmerge.symm.trans hmerge'
    exact hrestored.sameHeader_iff.mp hsame
  · intro hr
    refine ⟨_, hparts, ?_⟩
    rintro env fuel lcCtype' filename confFile reader rfl hopen hfile
    obtain ⟨c', hmerge, hrestored⟩ :=
      headerMerge_restored fuel lcCtype' hsound hfrom hlegible hversion hopen hfile
    exact ⟨c', hmerge, hrestored.sameHeader_iff.mpr hr⟩

end RoundTrip

/-! ## All runs -/

/-- In every run of merges from the default config on that leads to a legible config, its header
brings it back exactly if nothing is lost that is not written. -/
theorem mergeFiles_roundTrips_iff {env : HeaderEnv} {fuel : Nat} {lcCtype libVersion : XmlStr}
    {filenames : List XmlStr} {c : Config} (ha : env.loc.AsciiAgrees) (hl : env.loc.Lowers)
    (hversion : strAllWs libVersion = false)
    (hok : mergeFiles env fuel (configSetDefault lcCtype) filenames = .ok c)
    (hlegible : Legible env.loc c) : RoundTrips env.loc libVersion c ↔ Restorable c :=
  roundTrips_iff (mergeFiles_soundTables ha hl hok) (mergeFiles_fromDefault hok) hlegible hversion

theorem legible_configSetDefault : Legible .posix (configSetDefault (lit "C")) where
  metanames := by decide
  properties := by decide
  ids := uniqueIds_configSetDefault _
  parsers := fun k v hk => by
    have hwords : Each (fun k v => strTolower .posix k = .ok k ∧ stringlistBuild k = .ok [k] ∧
        IsTag v) (configSetDefault (lit "C")).parsers := by decide
    obtain ⟨hlower, halone, htag⟩ := hwords k v hk
    exact ⟨⟨hlower, halone⟩, htag⟩
  tagAliases := fun k v hk => by
    have hwords : Each (fun k v => strTolower .posix k = .ok k ∧ stringlistBuild k = .ok [k] ∧
        IsTag v) (configSetDefault (lit "C")).tagAliases := by decide
    obtain ⟨hlower, halone, htag⟩ := hwords k v hk
    exact ⟨⟨hlower, halone⟩, htag⟩
  index := by decide
  mimes := by decide +kernel
  misc := by decide

/-- A config file with a MetaName and an alias of it, a Property, a parser and a MIME type. -/
def libraryReader : Reader where
  nodes :=
    [startNode Swish.headerRoot [],
      startNode Swish.metaSection [],
      startNode (lit "author") [⟨none, lit "id", lit "50"⟩, ⟨none, lit "bias", lit "3"⟩],
      startNode (lit "writer") [⟨none, lit "id", lit "51"⟩, ⟨none, lit "alias_for", lit "author"⟩],
      endNode Swish.metaSection,
      startNode Swish.propSection [],
      startNode (lit "pages") [⟨none, lit "id", lit "60"⟩, ⟨none, lit "type", lit "int"⟩],
      endNode Swish.propSection,
      startNode Swish.parsersSection [],
      startNode (lit "TXT") [], textNode (lit "text/x-log"), endNode (lit "TXT"),
      endNode Swish.parsersSection,
      startNode Swish.mimeSection [],
      startNode (lit "log") [], textNode (lit "text/x-log"), endNode (lit "log"),
      endNode Swish.mimeSection,
      startNode (lit "Tokenize") [], textNode (lit "0"), endNode (lit "Tokenize"),
      endNode Swish.headerRoot]
  complete := true
  text_not_blank := by decide

/-- The default config with what that file adds. -/
def libraryConfig : Config :=
  let c := configSetDefault (lit "C")
  let author : MetaName := { metanameInit (lit "author") with id := 50, bias := 3 }
  let writer : MetaName :=
    { metanameInit (lit "writer") with id := 51, aliasFor := .live (lit "author") }
  let pages : Property := { propertyInit (lit "pages") with id := 60, type := Swish.propInt }
  { c with
    metanames := (c.metanames.insert (lit "writer") writer).insert (lit "author") author
    properties := c.properties.insert (lit "pages") pages
    parsers := c.parsers.insert (lit "text/x-log") (lit "TXT")
    mimes := c.mimes.insert (lit "log") (lit "text/x-log")
    misc := c.misc.insert (lit "Tokenize") (lit "0")
    flags := { c.flags with tokenize := false } }

theorem mergeFiles_library :
    mergeFiles (HeaderEnv.oneFile libraryReader) 1 (configSetDefault (lit "C"))
      [lit "swish.xml"] = .ok libraryConfig := rfl

theorem legible_libraryConfig : Legible .posix libraryConfig := by
  have hmetanames : Each (fun k m => Each (fun k' m' => m.id = m'.id → k = k')
      libraryConfig.metanames) libraryConfig.metanames := by decide
  have hproperties : Each (fun k p => Each (fun k' p' => p.id = p'.id → k = k')
      libraryConfig.properties) libraryConfig.properties := by decide
  have hparsers : Each (fun k v => strTolower .posix k = .ok k ∧ stringlistBuild k = .ok [k] ∧
      IsTag v) libraryConfig.parsers := by decide
  exact
    { metanames := by decide
      properties := by decide
      ids := ⟨fun k k' m m' hk hk' => hmetanames k m hk k' m' hk',
        fun k k' p p' hk hk' => hproperties k p hk k' p' hk'⟩
      parsers := fun k v hk =>
        ⟨⟨(hparsers k v hk).1, (hparsers k v hk).2.1⟩, (hparsers k v hk).2.2⟩
      tagAliases := legible_configSetDefault.tagAliases
      index := legible_configSetDefault.index
      mimes := by decide +kernel
      misc := by decide }

/-- What the file adds comes back. -/
theorem mergeFiles_roundTrips_library : RoundTrips .posix (lit "3.0.0") libraryConfig :=
  (mergeFiles_roundTrips_iff Locale.posix_asciiAgrees Locale.posix_lowers (by decide)
    mergeFiles_library legible_libraryConfig).mpr
    ⟨by decide, rfl, ⟨rfl, rfl, rfl, rfl, rfl, rfl⟩, rfl, rfl⟩

/-- `<swish><XMLClassAttributes>foo</XMLClassAttributes></swish>` -/
def classAttributesReader : Reader where
  nodes := [startNode Swish.headerRoot [], startNode Swish.classAttributes [], textNode (lit "foo"),
    endNode Swish.classAttributes, endNode Swish.headerRoot]
  complete := true
  text_not_blank := by decide

/-- The default config with a string list. -/
def classAttributesConfig : Config :=
  let c := configSetDefault (lit "C")
  { c with stringlists := c.stringlists.insert Swish.classAttributes [lit "foo"] }

/-- String lists are not written. -/
theorem mergeFiles_not_roundTrips :
    ¬ ∀ (env : HeaderEnv) (fuel : Nat) (lcCtype libVersion : XmlStr) (filenames : List XmlStr)
        (c : Config), env.loc.AsciiAgrees → env.loc.Lowers → strAllWs libVersion = false →
        mergeFiles env fuel (configSetDefault lcCtype) filenames = .ok c →
          RoundTrips env.loc libVersion c := by
  intro h
  have hok : mergeFiles (HeaderEnv.oneFile classAttributesReader) 1 (configSetDefault (lit "C"))
      [lit "swish.xml"] = .ok classAttributesConfig := rfl
  have hdefault := legible_configSetDefault
  have hlegible : Legible .posix classAttributesConfig :=
    ⟨hdefault.metanames, hdefault.properties, ⟨hdefault.ids.metanames, hdefault.ids.properties⟩,
      hdefault.parsers, hdefault.tagAliases, hdefault.index, hdefault.mimes, hdefault.misc⟩
  have hback := h _ 1 (lit "C") (lit "3.0.0") [lit "swish.xml"] _ Locale.posix_asciiAgrees
    Locale.posix_lowers (by decide) hok
  have hrestorable := (roundTrips_iff
    (mergeFiles_soundTables Locale.posix_asciiAgrees Locale.posix_lowers hok)
    (mergeFiles_fromDefault hok) hlegible (by decide)).mp hback
  have hmem : Swish.classAttributes ∈ classAttributesConfig.stringlists := by decide
  rw [hrestorable.stringlists] at hmem
  exact AList.notMem_empty _ hmem

end LibSwish3
