import LibSwish3.HeaderRules

/-!
# Flags and directives

The flags of a config are a cache of its directives: `FlagsFollow` says that each flag is
what the `misc` table asks for.  A merge sets the flags from the merged file alone, so an
earlier directive that the file does not repeat stays in the table and goes from the flag.

## Main definitions

* `FlagsFollow` — the flags agree with the directives.
* `Mentions` — a file repeats every directive that matters.
* `FileMentions` — a file does so for the config it is merged into.
* `mergeFiles_flagsFollow_iff` — which runs of merges keep the flags in step.
-/

namespace LibSwish3

open Runs Tables

/-! ## One directive -/

section Directive

variable {F : Type} {parse : XmlStr → Swish F} {key : XmlStr} {misc misc2 : HashTable XmlStr}
  {dflt f f2 : F}

theorem directive_of_none (h : misc.lookup key = none) :
    directive parse key misc dflt = .ok dflt := by
  rw [directive, h]

theorem directive_of_some {v : XmlStr} (h : misc.lookup key = some v) :
    directive parse key misc dflt = parse v := by
  rw [directive, h]

/-- Merging a file sets the flag to what the file says, or to the default.  That is what the
merged table says, unless the file is silent on a directive that asks for something else. -/
theorem directive_hashMerge_iff (misc1 : HashTable XmlStr)
    (hsilent : misc2.lookup key = none → f2 = dflt)
    (hmerged : directive parse key misc2 f2 = .ok f) :
    directive parse key (hashMerge misc1 misc2) dflt = .ok f ↔
      key ∈ misc2 ∨ directive parse key misc1 dflt = .ok dflt := by
  cases h : misc2.lookup key with
  | some v =>
      have hboth : (hashMerge misc1 misc2).lookup key = some v := lookup_mergeWith_of_some h
      rw [directive_of_some h] at hmerged
      simp [directive_of_some hboth, hmerged, mem_of_lookup h]
  | none =>
      have hf : f = dflt := by
        rw [directive_of_none h, Except.ok.injEq, hsilent h] at hmerged
        exact hmerged.symm
      have hkeep : (hashMerge misc1 misc2).lookup key = misc1.lookup key :=
        lookup_mergeWith_of_none h
      have hsame : directive parse key (hashMerge misc1 misc2) dflt =
          directive parse key misc1 dflt := by
        rw [directive, directive, hkeep]
      have hnot : key ∉ misc2 := AList.lookup_eq_none.mp h
      rw [hsame, hf]
      simp [hnot]

end Directive

/-! ## The flags of a config -/

/-- Each flag is what its directive asks for, and the default where that is not set. -/
structure FlagsFollow (c : Config) : Prop where
  tokenize : directive parseBoolean Swish.tokenize c.misc configInitFlags.tokenize =
    .ok c.flags.tokenize
  cascadeMetaContext : directive parseBoolean Swish.cascadeMetaContext c.misc
    configInitFlags.cascadeMetaContext = .ok c.flags.cascadeMetaContext
  ignoreXmlns : directive parseBoolean Swish.ignoreXmlns c.misc configInitFlags.ignoreXmlns =
    .ok c.flags.ignoreXmlns
  followXinclude : directive parseBoolean Swish.followXinclude c.misc
    configInitFlags.followXinclude = .ok c.flags.followXinclude
  undefMetas : directive parseUndefMetas Swish.undefinedMetatags c.misc
    configInitFlags.undefMetas = .ok c.flags.undefMetas
  undefAttrs : directive parseUndefAttrs Swish.undefinedXmlAttributes c.misc
    configInitFlags.undefAttrs = .ok c.flags.undefAttrs

/-- A flag whose directive is not set has its default. -/
structure FlagsIdle (c : Config) : Prop where
  tokenize : c.misc.lookup Swish.tokenize = none →
    c.flags.tokenize = configInitFlags.tokenize
  cascadeMetaContext : c.misc.lookup Swish.cascadeMetaContext = none →
    c.flags.cascadeMetaContext = configInitFlags.cascadeMetaContext
  ignoreXmlns : c.misc.lookup Swish.ignoreXmlns = none →
    c.flags.ignoreXmlns = configInitFlags.ignoreXmlns
  followXinclude : c.misc.lookup Swish.followXinclude = none →
    c.flags.followXinclude = configInitFlags.followXinclude
  undefMetas : c.misc.lookup Swish.undefinedMetatags = none →
    c.flags.undefMetas = configInitFlags.undefMetas
  undefAttrs : c.misc.lookup Swish.undefinedXmlAttributes = none →
    c.flags.undefAttrs = configInitFlags.undefAttrs

/-- The directive is set in `misc2`, or `misc1` asks for the default. -/
def MentionsOne {F : Type} (parse : XmlStr → Swish F) (key : XmlStr) (dflt : F)
    (misc1 misc2 : HashTable XmlStr) : Prop :=
  key ∈ misc2 ∨ directive parse key misc1 dflt = .ok dflt

/-- `misc2` sets every directive for which `misc1` asks for something other than the
default. -/
structure Mentions (misc1 misc2 : HashTable XmlStr) : Prop where
  tokenize : MentionsOne parseBoolean Swish.tokenize configInitFlags.tokenize misc1 misc2
  cascadeMetaContext : MentionsOne parseBoolean Swish.cascadeMetaContext
    configInitFlags.cascadeMetaContext misc1 misc2
  ignoreXmlns : MentionsOne parseBoolean Swish.ignoreXmlns configInitFlags.ignoreXmlns
    misc1 misc2
  followXinclude : MentionsOne parseBoolean Swish.followXinclude
    configInitFlags.followXinclude misc1 misc2
  undefMetas : MentionsOne parseUndefMetas Swish.undefinedMetatags
    configInitFlags.undefMetas misc1 misc2
  undefAttrs : MentionsOne parseUndefAttrs Swish.undefinedXmlAttributes
    configInitFlags.undefAttrs misc1 misc2

theorem flagsFollow_configSetDefault (lcCtype : XmlStr) :
    FlagsFollow (configSetDefault lcCtype) := ⟨rfl, rfl, rfl, rfl, rfl, rfl⟩

/-- The flags after a merge follow the merged directives exactly when the file mentions
what it has to. -/
theorem configMerge_flagsFollow_iff {c1 c2 c : Config} (hidle : FlagsIdle c2)
    (h : configMerge c1 c2 = .ok c) : FlagsFollow c ↔ Mentions c1.misc c2.misc := by
  obtain ⟨htables, hflags⟩ := configMerge_ok h
  have htok := directive_hashMerge_iff c1.misc hidle.tokenize hflags.tokenize
  have hcas := directive_hashMerge_iff c1.misc hidle.cascadeMetaContext
    hflags.cascadeMetaContext
  have hxml := directive_hashMerge_iff c1.misc hidle.ignoreXmlns hflags.ignoreXmlns
  have hinc := directive_hashMerge_iff c1.misc hidle.followXinclude
    hflags.followXinclude
  have hmet := directive_hashMerge_iff c1.misc hidle.undefMetas hflags.undefMetas
  have hatt := directive_hashMerge_iff c1.misc hidle.undefAttrs hflags.undefAttrs
  rw [← htables.misc] at htok hcas hxml hinc hmet hatt
  constructor
  · intro hf
    exact ⟨htok.mp hf.tokenize, hcas.mp hf.cascadeMetaContext, hxml.mp hf.ignoreXmlns,
      hinc.mp hf.followXinclude, hmet.mp hf.undefMetas, hatt.mp hf.undefAttrs⟩
  · intro hm
    exact ⟨htok.mpr hm.tokenize, hcas.mpr hm.cascadeMetaContext, hxml.mpr hm.ignoreXmlns,
      hinc.mpr hm.followXinclude, hmet.mpr hm.undefMetas, hatt.mpr hm.undefAttrs⟩

/-! ## Files that are read -/

theorem handleSpecialMiscFlags_ok {c c' : Config} (h : handleSpecialMiscFlags c = .ok c') :
    ∃ tokenize cascadeMetaContext ignoreXmlns undefMetas undefAttrs,
      directive parseBoolean Swish.tokenize c.misc c.flags.tokenize = .ok tokenize ∧
      directive parseBoolean Swish.cascadeMetaContext c.misc c.flags.cascadeMetaContext =
        .ok cascadeMetaContext ∧
      directive parseBoolean Swish.ignoreXmlns c.misc c.flags.ignoreXmlns = .ok ignoreXmlns ∧
      directive parseUndefMetas Swish.undefinedMetatags c.misc c.flags.undefMetas =
        .ok undefMetas ∧
      directive parseUndefAttrs Swish.undefinedXmlAttributes c.misc c.flags.undefAttrs =
        .ok undefAttrs ∧
      c' = { c with flags := { c.flags with
        tokenize, cascadeMetaContext, ignoreXmlns, undefMetas, undefAttrs } } := by
  unfold handleSpecialMiscFlags at h
  obtain ⟨tokenize, htokenize, h⟩ := bind_ok_iff.mp h
  obtain ⟨cascade, hcascade, h⟩ := bind_ok_iff.mp h
  obtain ⟨xmlns, hxmlns, h⟩ := bind_ok_iff.mp h
  obtain ⟨metas, hmetas, h⟩ := bind_ok_iff.mp h
  obtain ⟨attrs, hattrs, h⟩ := bind_ok_iff.mp h
  exact ⟨tokenize, cascade, xmlns, metas, attrs, htokenize, hcascade, hxmlns, hmetas, hattrs,
    (Except.ok.inj h).symm⟩

/-- A directive that is not set keeps the flag, also when another one has just been set. -/
private theorem directive_idle {F : Type} {parse : XmlStr → Swish F} {key : XmlStr}
    {misc : HashTable XmlStr} {f f' dflt : F} (hf : misc.lookup key = none → f = dflt)
    (hd : directive parse key misc f = .ok f') (h : misc.lookup key = none) : f' = dflt := by
  rw [directive_of_none h, Except.ok.injEq] at hd
  rw [← hd, hf h]

private theorem lookup_insert_none {key k value : XmlStr} {misc : HashTable XmlStr}
    (h : (misc.insert k value).lookup key = none) : misc.lookup key = none := by
  rw [AList.lookup_eq_none, AList.mem_insert, not_or] at h
  exact AList.lookup_eq_none.mpr h.2

private theorem lookup_hashMerge_none {key : XmlStr} {misc1 misc2 : HashTable XmlStr}
    (h : (hashMerge misc1 misc2).lookup key = none) : misc2.lookup key = none := by
  rw [AList.lookup_eq_none, hashMerge, mem_mergeWith, not_or] at h
  exact AList.lookup_eq_none.mpr h.2

theorem flagsIdle_merge {c1 c2 c : Config} (h2 : FlagsIdle c2)
    (h : configMerge c1 c2 = .ok c) : FlagsIdle c := by
  obtain ⟨htables, hflags⟩ := configMerge_ok h
  have hnone : ∀ key, c.misc.lookup key = none → c2.misc.lookup key = none := by
    intro key hkey
    rw [htables.misc] at hkey
    exact lookup_hashMerge_none hkey
  exact {
    tokenize := fun hk => directive_idle h2.tokenize hflags.tokenize (hnone _ hk)
    cascadeMetaContext := fun hk =>
      directive_idle h2.cascadeMetaContext hflags.cascadeMetaContext (hnone _ hk)
    ignoreXmlns := fun hk => directive_idle h2.ignoreXmlns hflags.ignoreXmlns (hnone _ hk)
    followXinclude := fun hk =>
      directive_idle h2.followXinclude hflags.followXinclude (hnone _ hk)
    undefMetas := fun hk => directive_idle h2.undefMetas hflags.undefMetas (hnone _ hk)
    undefAttrs := fun hk => directive_idle h2.undefAttrs hflags.undefAttrs (hnone _ hk) }

theorem flagsIdle_misc {c c' : Config} {key value : XmlStr} (hc : FlagsIdle c)
    (h : handleSpecialMiscFlags (c.setValue .misc key value) = .ok c') : FlagsIdle c' := by
  obtain ⟨tokenize, cascade, xmlns, metas, attrs, htok, hcas, hxml, hmet, hatt, rfl⟩ :=
    handleSpecialMiscFlags_ok h
  exact {
    tokenize := directive_idle (fun hk => hc.tokenize (lookup_insert_none hk)) htok
    cascadeMetaContext :=
      directive_idle (fun hk => hc.cascadeMetaContext (lookup_insert_none hk)) hcas
    ignoreXmlns := directive_idle (fun hk => hc.ignoreXmlns (lookup_insert_none hk)) hxml
    followXinclude := fun hk => hc.followXinclude (lookup_insert_none hk)
    undefMetas := directive_idle (fun hk => hc.undefMetas (lookup_insert_none hk)) hmet
    undefAttrs := directive_idle (fun hk => hc.undefAttrs (lookup_insert_none hk)) hatt }

private theorem flagsIdle_congr {c c' : Config} (h : FlagsIdle c) (hmisc : c'.misc = c.misc)
    (hflags : ∃ a b t u, c'.flags =
      { c.flags with maxMetaId := a, maxPropId := b, metaIds := t, propIds := u }) :
    FlagsIdle c' := by
  obtain ⟨a, b, t, u, hflags⟩ := hflags
  constructor
  · rw [hmisc, hflags]; exact h.tokenize
  · rw [hmisc, hflags]; exact h.cascadeMetaContext
  · rw [hmisc, hflags]; exact h.ignoreXmlns
  · rw [hmisc, hflags]; exact h.followXinclude
  · rw [hmisc, hflags]; exact h.undefMetas
  · rw [hmisc, hflags]; exact h.undefAttrs

theorem flagsIdle_keptBy (loc : Locale) :
    KeptBy loc .free FlagsIdle (fun _ => True) (fun _ => True) where
  init := ⟨fun _ => rfl, fun _ => rfl, fun _ => rfl, fun _ => rfl, fun _ => rfl, fun _ => rfl⟩
  ids _ _ _ _ _ h := flagsIdle_congr h rfl ⟨_, _, _, _, rfl⟩
  metaname_init _ _ _ := trivial
  metaname_attr _ _ _ := ⟨trivial, trivial⟩
  metaname_alias _ _ _ _ _ := ⟨trivial, trivial⟩
  metaname_new _ _ _ _ _ := trivial
  metaname _ _ h _ _ _ := flagsIdle_congr h rfl ⟨_, _, _, _, rfl⟩
  metaname_target _ _ _ _ h _ _ := flagsIdle_congr h rfl ⟨_, _, _, _, rfl⟩
  property_init _ _ _ := trivial
  property_attr _ _ _ _ _ _ _ := ⟨trivial, trivial, trivial, trivial, trivial⟩
  property_alias _ _ _ _ _ := ⟨trivial, trivial⟩
  property_new _ _ _ _ _ := trivial
  property _ _ h _ _ _ := flagsIdle_congr h rfl ⟨_, _, _, _, rfl⟩
  value _ table _ _ h hne _ _ := by
    cases table with
    | misc => exact absurd rfl hne
    | index => exact flagsIdle_congr h rfl ⟨_, _, _, _, rfl⟩
    | mimes => exact flagsIdle_congr h rfl ⟨_, _, _, _, rfl⟩
  misc _ _ _ _ h _ _ _ hok := flagsIdle_misc h hok
  values _ _ _ table _ h _ _ := by
    cases table with
    | parsers => exact flagsIdle_congr h rfl ⟨_, _, _, _, rfl⟩
    | tagAliases => exact flagsIdle_congr h rfl ⟨_, _, _, _, rfl⟩
  stringlist _ _ _ h := flagsIdle_congr h rfl ⟨_, _, _, _, rfl⟩
  merge _ _ _ _ h2 _ hok _ _ := flagsIdle_merge h2 hok

variable {env : HeaderEnv} {fuel : Nat}

theorem flagsIdle_headerRead {filename : XmlStr} {config : Config}
    (h : headerRead env fuel filename = .ok config) : FlagsIdle config :=
  headerRead_kept (flagsIdle_keptBy env.loc) (readMeets_free fuel filename) h

/-! ## Runs of merges -/

/-- The file mentions the directives of the config it is merged into. -/
def FileMentions (env : HeaderEnv) (fuel : Nat) (c : Config) (filename : XmlStr) : Prop :=
  ∀ config, headerRead env (fuel - 1) filename = .ok config → Mentions c.misc config.misc

/-- One merge keeps the flags in step exactly when the file mentions what it has to. -/
theorem headerMerge_flagsFollow_iff {filename : XmlStr} {c c' : Config}
    (h : headerMerge env fuel filename c = .ok c') :
    FlagsFollow c' ↔ FileMentions env fuel c filename := by
  obtain ⟨config, hread, hmerged, -, -⟩ := headerMerge_ok h
  rw [configMerge_flagsFollow_iff (flagsIdle_headerRead hread) hmerged]
  constructor
  · intro hm config' hread'
    rw [hread, Except.ok.injEq] at hread'
    exact hread' ▸ hm
  · intro hm
    exact hm config hread

/-- The flags follow the merged directives after every file exactly when each file mentions
every directive for which the files before it ask for something other than the default. -/
theorem mergeFiles_flagsFollow_iff {lcCtype : XmlStr} {filenames : List XmlStr} {c : Config}
    (h : mergeFiles env fuel (configSetDefault lcCtype) filenames = .ok c) :
    (∀ pre post t, filenames = pre ++ post →
        mergeFiles env fuel (configSetDefault lcCtype) pre = .ok t → FlagsFollow t) ↔
      Steps (fun c filename => headerMerge env fuel filename c) (FileMentions env fuel)
        (configSetDefault lcCtype) filenames :=
  prefixes_iff_steps (fun _ _ _ _ hok => headerMerge_flagsFollow_iff hok)
    (flagsFollow_configSetDefault lcCtype) h

/-! ## Three files -/

/-- `<swish><Tokenize>0</Tokenize></swish>` -/
def tokenizeOff : Reader where
  nodes := [startNode Swish.headerRoot [], startNode Swish.tokenize [], textNode (lit "0"),
    endNode Swish.tokenize, endNode Swish.headerRoot]
  complete := true
  text_not_blank := by decide

/-- `<swish><IgnoreXMLNameSpaces>1</IgnoreXMLNameSpaces></swish>` -/
def ignoreXmlnsOn : Reader where
  nodes := [startNode Swish.headerRoot [], startNode Swish.ignoreXmlns [], textNode (lit "1"),
    endNode Swish.ignoreXmlns, endNode Swish.headerRoot]
  complete := true
  text_not_blank := by decide

/-- The second directive again, and the first one the other way round. -/
def bothOn : Reader where
  nodes := [startNode Swish.headerRoot [], startNode Swish.tokenize [], textNode (lit "1"),
    endNode Swish.tokenize, startNode Swish.ignoreXmlns [], textNode (lit "1"),
    endNode Swish.ignoreXmlns, endNode Swish.headerRoot]
  complete := true
  text_not_blank := by decide

/-- A directory with the three files. -/
def flagFiles : HeaderEnv where
  loc := .posix
  fileExists filename := [lit "a.xml", lit "b.xml", lit "c.xml"].contains filename
  readerForFile filename :=
    if filename = lit "a.xml" then some tokenizeOff
    else if filename = lit "b.xml" then some ignoreXmlnsOn
    else some bothOn
  readerForMemory _ := none
  buildURI _ _ := none
  freshIsValid := false

/-- The second file does not mention `Tokenize`, and its flag is on again. -/
theorem mergeFiles_resets_tokenize :
    ¬ ∀ env fuel lcCtype filenames c,
      mergeFiles env fuel (configSetDefault lcCtype) filenames = .ok c → FlagsFollow c := by
  intro h
  have hf := h flagFiles 1 (lit "C") [lit "a.xml", lit "b.xml"] _ rfl
  have htok := hf.tokenize
  exact absurd htok (by decide)

/-- The third file mentions what the first one has set. -/
theorem mergeFiles_flagsFollow_bothOn : ∃ c,
    mergeFiles flagFiles 1 (configSetDefault (lit "C")) [lit "a.xml", lit "c.xml"] = .ok c ∧
      c.flags.tokenize = true ∧ c.flags.ignoreXmlns = true ∧
      ∀ pre post t, [lit "a.xml", lit "c.xml"] = pre ++ post →
        mergeFiles flagFiles 1 (configSetDefault (lit "C")) pre = .ok t → FlagsFollow t := by
  refine ⟨_, rfl, rfl, rfl, (mergeFiles_flagsFollow_iff rfl).mpr ?_⟩
  refine steps_cons_of_ok (fun config hread => ?_) rfl
    (steps_cons_of_ok (fun config hread => ?_) rfl steps_nil)
  · exact ⟨.inr rfl, .inr rfl, .inr rfl, .inr rfl, .inr rfl, .inr rfl⟩
  · cases hread
    exact ⟨.inl (by decide), .inr rfl, .inr rfl, .inr rfl, .inr rfl, .inr rfl⟩

end LibSwish3
