import LibSwish3.HeaderReread
import LibSwish3.UniqueIds

/-!
# What merged configs are like

Everything in a config has come from a default or from a header file: names are in lower case,
numbers are those of an `int`, keys that were element names are no reserved ones, and values that
were texts are not blank.  A config that started as the default one keeps the default keys, and
the `presort` of its Properties, since a merge sets neither.

## Main definitions

* `SoundTables` — the first kind of facts, for every config that is read or merged.
* `FromDefault` — the second kind, for what the default config is merged into.
-/

namespace LibSwish3

open Runs Tables

/-! ## Sound tables -/

/-- A MetaName as the reader makes one. -/
structure MetanameSound (loc : Locale) (name : XmlStr) (m : MetaName) : Prop where
  lower : strTolower loc name = .ok name
  id : IsInt m.id
  bias : IsInt m.bias
  target : ∀ target, m.aliasFor = .live target → strTolower loc target = .ok target

/-- A Property as the reader makes one. -/
structure PropertySound (loc : Locale) (name : XmlStr) (prop : Property) : Prop where
  lower : strTolower loc name = .ok name
  id : IsInt prop.id
  type : IsInt prop.type
  max : prop.max < 2 ^ 32
  sortLength : prop.sortLength < 2 ^ 32
  target : ∀ target, prop.aliasFor = .live target → strTolower loc target = .ok target

/-- Every entry is as the reader makes one. -/
structure SoundTables (loc : Locale) (c : Config) : Prop where
  metanames : Each (MetanameSound loc) c.metanames
  properties : Each (PropertySound loc) c.properties
  parsers : Each (fun _ v => Unreserved v) c.parsers
  tagAliases : Each (fun _ v => Unreserved v) c.tagAliases
  index : Each (fun k _ => Unreserved k) c.index
  mimes : Each (fun k v => writesMime k v = true → Unreserved k ∧ strAllWs v = false) c.mimes
  misc : Each (fun k v => Unreserved k ∧ k ≠ Swish.classAttributes ∧ strAllWs v = false) c.misc
  modes : Each ModeKnown c.misc

section Sound

variable {loc : Locale} {c c1 c2 c' : Config} {name : XmlStr}

theorem soundTables_configInit : SoundTables loc configInit :=
  ⟨each_empty, each_empty, each_empty, each_empty, each_empty, each_empty, each_empty,
    each_empty⟩

theorem toUInt_lt (v : Int) : toUInt v < 2 ^ 32 := by
  rw [toUInt]
  omega

theorem metanameSound_init (hlower : strTolower loc name = .ok name) :
    MetanameSound loc name (metanameInit name) :=
  ⟨hlower, (by decide : IsInt (-1)), (by decide : IsInt 0), fun _ h => by cases h⟩

theorem propertySound_init (hlower : strTolower loc name = .ok name) :
    PropertySound loc name (propertyInit name) :=
  ⟨hlower, (by decide : IsInt (-1)), (by decide : IsInt Swish.propString),
    (by decide : 0 < 2 ^ 32), (by decide : 0 < 2 ^ 32), fun _ h => by cases h⟩

/-- A default name is one of the reader's. -/
theorem soundTables_configSetDefault (lcCtype : XmlStr) :
    SoundTables loc (configSetDefault lcCtype) where
  metanames := by
    refine (each_empty.insert ?_).insert ?_
    all_goals exact ⟨rfl, by decide, by decide, fun _ h => by cases h⟩
  properties := by
    refine (each_empty.insert ?_).insert ?_
    all_goals exact ⟨rfl, by decide, by decide, by decide, by decide, fun _ h => by cases h⟩
  parsers := by
    refine ((((each_empty.insert ?_).insert ?_).insert ?_).insert ?_).insert ?_
    all_goals exact ⟨by decide, by decide, by decide⟩
  tagAliases := by
    refine (each_empty.insert ?_).insert ?_
    all_goals exact ⟨by decide, by decide, by decide⟩
  index := by
    refine ((each_empty.insert ?_).insert ?_).insert ?_
    all_goals exact ⟨by decide, by decide, by decide⟩
  mimes := by
    intro k v hk hwrites
    have hk : mimeDefaults.lookup k = some v := hk
    have hmem : k ∈ mimeDefaults := mem_of_lookup hk
    simp [writesMime, hk, hmem] at hwrites
  misc := each_empty
  modes := each_empty

/-- The flags could be set, so the directives are known. -/
theorem modeKnown_of_handled (hok : handleSpecialMiscFlags c = .ok c') :
    Each ModeKnown c.misc := by
  obtain ⟨_, _, _, metas, attrs, -, -, -, hmetas, hattrs, -⟩ := handleSpecialMiscFlags_ok hok
  intro k v hk
  refine ⟨?_, ?_⟩
  · rintro rfl
    exact ⟨metas, (directive_of_some hk).symm.trans hmetas⟩
  · rintro rfl
    exact ⟨attrs, (directive_of_some hk).symm.trans hattrs⟩

theorem copyAlias_live {alias1 alias2 : CPtr XmlStr} {target : XmlStr}
    (h : copyAlias alias1 alias2 = .live target) : alias2 = .live target := by
  cases alias1 <;> cases alias2 <;> simp_all [copyAlias]

theorem soundTables_merge (h1 : SoundTables loc c1) (h2 : SoundTables loc c2)
    (hok : configMerge c1 c2 = .ok c) : SoundTables loc c := by
  obtain ⟨htables, -⟩ := configMerge_ok hok
  constructor
  · rw [htables.metanames]
    refine h1.metanames.mergeWith fun k m hk => ?_
    have hm := h2.metanames k m hk
    exact ⟨hm.lower, hm.id, hm.bias, fun t ht => hm.target t (copyAlias_live ht)⟩
  · rw [htables.properties]
    refine h1.properties.mergeWith fun k p hk => ?_
    have hp := h2.properties k p hk
    refine ⟨hp.lower, hp.id, hp.type, hp.max, ?_, fun t ht => hp.target t (copyAlias_live ht)⟩
    cases hlook : c1.properties.lookup k with
    | none => exact (propertySound_init hp.lower).sortLength
    | some p1 => exact (h1.properties k p1 hlook).sortLength
  · rw [htables.parsers]
    exact h1.parsers.mergeWith h2.parsers
  · rw [htables.tagAliases]
    exact h1.tagAliases.mergeWith h2.tagAliases
  · rw [htables.index]
    exact h1.index.mergeWith h2.index
  · rw [htables.mimes]
    exact h1.mimes.mergeWith h2.mimes
  · rw [htables.misc]
    exact h1.misc.mergeWith h2.misc
  · rw [htables.misc]
    exact h1.modes.mergeWith h2.modes

theorem each_foldl_hashReplace {Q : XmlStr → XmlStr → Prop} {t : HashTable XmlStr}
    (words : List XmlStr) (h : Each Q t) (hname : ∀ word, Q word name) :
    Each Q (words.foldl (fun t word => hashReplace t word name) t) := by
  induction words generalizing t with
  | nil => exact h
  | cons word words ih => exact ih (h.insert (hname word))

/-- Only the tables matter. -/
theorem SoundTables.congr (h : SoundTables loc c) (flags : ConfigFlags)
    (stringlists : HashTable (List XmlStr)) : SoundTables loc { c with flags, stringlists } :=
  ⟨h.metanames, h.properties, h.parsers, h.tagAliases, h.index, h.mimes, h.misc, h.modes⟩

theorem soundTables_keptBy (ha : loc.AsciiAgrees) (hl : loc.Lowers) :
    KeptBy loc .free (SoundTables loc) (fun m => MetanameSound loc m.name m)
      (fun prop => PropertySound loc prop.name prop) where
  init := soundTables_configInit
  ids _ _ _ _ _ h := h.congr _ _
  metaname_init _ _ hlower := metanameSound_init (strTolower_idem ha hl hlower)
  metaname_attr m v h := ⟨⟨h.lower, h.id, isInt_toInt v, h.target⟩,
    ⟨h.lower, isInt_toInt v, h.bias, h.target⟩⟩
  metaname_alias m _ name h hlower := by
    have hname := strTolower_idem ha hl hlower
    refine ⟨⟨h.lower, h.id, h.bias, fun target ht => ?_⟩, ⟨hname, h.id, h.bias, h.target⟩⟩
    cases ht
    exact hname
  metaname_new m _ n h hnew := by
    refine ⟨hnew.lower, isInt_toInt n, h.bias, fun target ht => ?_⟩
    cases ht
    exact h.lower
  metaname _ m h hm _ _ := { h with metanames := h.metanames.insert hm }
  metaname_target _ name newmeta m h hm hlook := by
    have hold := h.metanames name newmeta hlook
    have hsound : MetanameSound loc name { newmeta with aliasFor := .live m.name } := by
      refine ⟨hold.lower, hold.id, hold.bias, fun target ht => ?_⟩
      cases ht
      exact hm.lower
    exact { h with metanames := h.metanames.insert hsound }
  property_init _ _ hlower := propertySound_init (strTolower_idem ha hl hlower)
  property_attr prop v _ _ _ _ h :=
    ⟨⟨h.lower, h.id, h.type, h.max, h.sortLength, h.target⟩,
      ⟨h.lower, h.id, h.type, toUInt_lt v, h.sortLength, h.target⟩,
      ⟨h.lower, h.id, h.type, h.max, toUInt_lt v, h.target⟩,
      ⟨h.lower, isInt_toInt v, h.type, h.max, h.sortLength, h.target⟩,
      ⟨h.lower, h.id, isInt_toInt v, h.max, h.sortLength, h.target⟩⟩
  property_alias prop _ name h hlower := by
    have hname := strTolower_idem ha hl hlower
    refine ⟨⟨h.lower, h.id, h.type, h.max, h.sortLength, fun target ht => ?_⟩,
      ⟨hname, h.id, h.type, h.max, h.sortLength, h.target⟩⟩
    cases ht
    exact hname
  property_new prop _ n h hnew := by
    refine ⟨hnew.lower, isInt_toInt n, h.type, h.max, hnew.sortLength, fun target ht => ?_⟩
    cases ht
    exact h.lower
  property _ prop h hprop _ _ := { h with properties := h.properties.insert hprop }
  value _ table key value h hmisc hkey hvalue := by
    cases table with
    | index => exact { h with index := h.index.insert hkey }
    | mimes => exact { h with mimes := h.mimes.insert fun _ => ⟨hkey, hvalue⟩ }
    | misc => exact absurd rfl hmisc
  misc c key value c' h hkey hclass hvalue hok := by
    have hmodes := modeKnown_of_handled hok
    obtain ⟨flags, rfl⟩ := handleSpecialMiscFlags_tables hok
    exact { h with misc := h.misc.insert ⟨hkey, hclass, hvalue⟩, modes := hmodes }
  values _ _ _ table name h hname _ := by
    cases table with
    | parsers => exact { h with parsers := each_foldl_hashReplace _ h.parsers fun _ => hname }
    | tagAliases =>
        exact { h with tagAliases := each_foldl_hashReplace _ h.tagAliases fun _ => hname }
  stringlist _ _ _ h := h.congr _ _
  merge _ _ _ h1 h2 _ hok _ _ := soundTables_merge h1 h2 hok

theorem mergeFiles_soundTables {env : HeaderEnv} {fuel : Nat} {lcCtype : XmlStr}
    {filenames : List XmlStr} (ha : env.loc.AsciiAgrees) (hl : env.loc.Lowers)
    (hok : mergeFiles env fuel (configSetDefault lcCtype) filenames = .ok c) :
    SoundTables env.loc c :=
  invariant (fun _ filename _ h hstep =>
      headerMerge_kept (soundTables_keptBy ha hl) (mergeMeets_free fuel filename _) h hstep)
    (soundTables_configSetDefault lcCtype) hok

end Sound

/-! ## What stays from the default config -/

/-- Every key of `c₁` is one of `c₂`. -/
structure KeysWithin (c₁ c₂ : Config) : Prop where
  metanames : ∀ k ∈ c₁.metanames, k ∈ c₂.metanames
  properties : ∀ k ∈ c₁.properties, k ∈ c₂.properties
  parsers : ∀ k ∈ c₁.parsers, k ∈ c₂.parsers
  mimes : ∀ k ∈ c₁.mimes, k ∈ c₂.mimes
  index : ∀ k ∈ c₁.index, k ∈ c₂.index
  tagAliases : ∀ k ∈ c₁.tagAliases, k ∈ c₂.tagAliases

/-- A config into which files were merged, from the default config `c₀` on. -/
structure FromDefault (c₀ c : Config) : Prop extends KeysWithin c₀ c where
  /-- A merge sets neither. -/
  presort : Each (fun _ prop => prop.presort = true ∧ prop.sortLength = 0) c.properties
  metaIds : c.flags.metaIds = c₀.flags.metaIds
  propIds : c.flags.propIds = c₀.flags.propIds
  tested : configTestAliasFors c = .ok ()

section FromDefault

variable {c₀ c c' : Config}

theorem fromDefault_configSetDefault (lcCtype : XmlStr) :
    FromDefault (configSetDefault lcCtype) (configSetDefault lcCtype) where
  metanames _ := id
  properties _ := id
  parsers _ := id
  mimes _ := id
  index _ := id
  tagAliases _ := id
  presort := by
    refine (each_empty.insert ?_).insert ?_
    all_goals exact ⟨rfl, rfl⟩
  metaIds := rfl
  propIds := rfl
  tested := rfl

/-- A merge takes no key away. -/
theorem keysWithin_merge {c2 : Config} (h : KeysWithin c₀ c) (htables : MergedTables c c2 c') :
    KeysWithin c₀ c' where
  metanames k hk := by
    rw [htables.metanames, mem_mergeWith]
    exact .inl (h.metanames k hk)
  properties k hk := by
    rw [htables.properties, mem_mergeWith]
    exact .inl (h.properties k hk)
  parsers k hk := by
    rw [htables.parsers, hashMerge, mem_mergeWith]
    exact .inl (h.parsers k hk)
  mimes k hk := by
    rw [htables.mimes, hashMerge, mem_mergeWith]
    exact .inl (h.mimes k hk)
  index k hk := by
    rw [htables.index, hashMerge, mem_mergeWith]
    exact .inl (h.index k hk)
  tagAliases k hk := by
    rw [htables.tagAliases, hashMerge, mem_mergeWith]
    exact .inl (h.tagAliases k hk)

theorem headerMerge_fromDefault {env : HeaderEnv} {fuel : Nat} {filename : XmlStr}
    (h : FromDefault c₀ c) (hok : headerMerge env fuel filename c = .ok c') :
    FromDefault c₀ c' := by
  obtain ⟨c2, -, hmerged, -, htest⟩ := headerMerge_ok hok
  obtain ⟨htables, hflags⟩ := configMerge_ok hmerged
  refine ⟨keysWithin_merge h.toKeysWithin htables, ?_, hflags.metaIds.trans h.metaIds,
    hflags.propIds.trans h.propIds, htest⟩
  rw [htables.properties]
  refine h.presort.mergeWith fun k p hk => ?_
  cases hlook : c.properties.lookup k with
  | none => exact ⟨rfl, rfl⟩
  | some p1 => exact h.presort k p1 hlook

theorem mergeFiles_fromDefault {env : HeaderEnv} {fuel : Nat} {lcCtype : XmlStr}
    {filenames : List XmlStr}
    (hok : mergeFiles env fuel (configSetDefault lcCtype) filenames = .ok c) :
    FromDefault (configSetDefault lcCtype) c :=
  invariant (fun _ _ _ h hstep => headerMerge_fromDefault h hstep)
    (fromDefault_configSetDefault lcCtype) hok

end FromDefault

end LibSwish3
