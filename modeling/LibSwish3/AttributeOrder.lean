import LibSwish3.CurrentTag
import LibSwish3.MetaCase
import Mathlib.Algebra.Order.BigOperators.Group.List

/-!
# The order of attributes

The attribute loop of `bake_tag` rewrites the tag while it goes on: the value of an attribute
that is listed in `XMLClassAttributes` is appended to it, once for each time it is listed.  The
dotted MetaNames are formed from the tag as it is by then, so an attribute in front of a class
attribute is looked up under another name than one behind it.

## Main definitions

* `tagNames` — the baked tag, and the MetaName and the text of each attribute.
* `contributed` — the pairs that are indexed.
* `AttributesUnordered`, `attributesUnordered_iff`.
-/

namespace LibSwish3

open Runs Tables

/-! ## The names of a start tag -/

/-- The words of `XMLClassAttributes`. -/
def classWords (config : Config) : List XmlStr :=
  (config.stringlists.lookup Swish.classAttributes).getD []

/-- The parser with other words in `XMLClassAttributes`. -/
def withClassWords (pd : ParserData) (words : List XmlStr) : ParserData :=
  { pd with config := { pd.config with
    stringlists := pd.config.stringlists.insert Swish.classAttributes words } }

/-- An attribute adds its MetaName and its text to the pairs, and may add to the tag. -/
def tagNamesStep (env : TagEnv) (pd : ParserData) (s : XmlStr × List (XmlStr × XmlStr))
    (att : XmlStr × Option XmlStr) : Swish (XmlStr × List (XmlStr × XmlStr)) := do
  let names ← attributeNames env pd s.1 att
  pure (names.1, s.2 ++ [names.2])

/-- The baked tag of an XML element, and the MetaName and the text of each attribute. -/
def tagNames (env : TagEnv) (pd : ParserData) (tag : XmlStr) (atts : Atts)
    (xmlnsPrefix : Option XmlStr) : Swish (XmlStr × List (XmlStr × XmlStr)) := do
  let swishtag ← normalizeTag env pd tag xmlnsPrefix
  let s ← run (tagNamesStep env pd) (swishtag, []) atts
  pure (aliasTag pd s.1, s.2)

/-- The config knows a MetaName, or makes it up for an attribute. -/
def Contributes (config : Config) (metaname : XmlStr) : Prop :=
  metaname ∈ config.metanames ∨ config.flags.undefAttrs = .auto ∨
    config.flags.undefAttrs = .autoall

instance (config : Config) (metaname : XmlStr) : Decidable (Contributes config metaname) :=
  inferInstanceAs (Decidable (_ ∨ _ ∨ _))

/-- The pairs that are indexed. -/
def contributed (config : Config) (pairs : List (XmlStr × XmlStr)) : List (XmlStr × XmlStr) :=
  pairs.filter fun pair => Contributes config pair.1

/-- The baked tag and the pairs that are indexed stay the same when the attributes are permuted
and when words of `XMLClassAttributes` are listed in another order or more than once. -/
def AttributesUnordered (env : TagEnv) (pd : ParserData) (tag : XmlStr) (atts : Atts)
    (xmlnsPrefix : Option XmlStr) : Prop :=
  ∀ atts' words', atts'.Perm atts → (∀ word, word ∈ words' ↔ word ∈ classWords pd.config) →
    ∃ baked pairs pairs', tagNames env pd tag atts xmlnsPrefix = .ok (baked, pairs) ∧
      tagNames env (withClassWords pd words') tag atts' xmlnsPrefix = .ok (baked, pairs') ∧
      (contributed pd.config pairs').Perm (contributed pd.config pairs)

section Names

variable {env : TagEnv} {pd pd' : ParserData} {tag swishtag : XmlStr}
  {att : XmlStr × Option XmlStr} {atts atts' : Atts} {xmlnsPrefix : Option XmlStr}
  {words : List XmlStr}

@[simp] theorem classWords_withClassWords (pd : ParserData) (words : List XmlStr) :
    classWords (withClassWords pd words).config = words := by
  simp [classWords, withClassWords]

theorem lowerName_of_ok {loc : Locale} {s lowered : XmlStr} (h : strTolower loc s = .ok lowered) :
    lowerName loc s = lowered := by
  rw [lowerName, h]

/-- The name and the value of an attribute can be converted to lowercase. -/
def LowersAtt (loc : Locale) (att : XmlStr × Option XmlStr) : Prop :=
  strTolower loc att.1 = .ok (lowerName loc att.1) ∧
    ∃ value, att.2 = some value ∧ strTolower loc value = .ok (lowerName loc value)

theorem attributeNames_ok_iff {names : XmlStr × XmlStr × XmlStr} :
    attributeNames env pd swishtag att = .ok names ↔ LowersAtt env.loc att ∧
      names.1 = classAttribute (classWords pd.config) (lowerName env.loc att.1)
        (lowerName env.loc (att.2.getD [])) swishtag ∧
      names.2 = (names.1 ++ Swish.dot :: lowerName env.loc att.1,
        lowerName env.loc (att.2.getD [])) := by
  obtain ⟨name, value⟩ := att
  constructor
  · intro h
    obtain ⟨attrLower, hname, h⟩ := bind_ok_iff.mp h
    cases value with
    | none => cases h
    | some value =>
        obtain ⟨attrValLower, hvalue, h⟩ := bind_ok_iff.mp h
        cases h
        have hname' := lowerName_of_ok hname
        have hvalue' := lowerName_of_ok hvalue
        simp only [LowersAtt, Option.getD_some, hname', hvalue']
        exact ⟨⟨hname, value, rfl, hvalue'.symm ▸ hvalue⟩, rfl, trivial⟩
  · rintro ⟨⟨hname, value, hvalue, hlower⟩, hfst, hsnd⟩
    cases hvalue
    simp only [attributeNames, hname, hlower, ok_bind, pure_eq_ok]
    rw [Option.getD_some] at hfst hsnd
    exact congrArg Except.ok (Prod.ext hfst.symm (hsnd.trans (by rw [hfst]; rfl)).symm)

/-- A value is not added for an attribute that is not listed. -/
theorem classAttribute_of_not_mem {attrLower attrValLower : XmlStr} (h : attrLower ∉ words) :
    classAttribute words attrLower attrValLower swishtag = swishtag := by
  induction words generalizing swishtag with
  | nil => rfl
  | cons word words ih =>
      obtain ⟨hne, hnot⟩ := not_or.mp (mt List.mem_cons.mpr h)
      rw [classAttribute, List.foldl_cons, if_neg (Ne.symm hne)]
      exact ih hnot

/-- The tag grows at least by the dot each time the attribute is listed. -/
theorem length_classAttribute (words : List XmlStr) (attrLower attrValLower swishtag : XmlStr) :
    swishtag.length + words.count attrLower ≤
      (classAttribute words attrLower attrValLower swishtag).length := by
  induction words generalizing swishtag with
  | nil => exact Nat.le_refl _
  | cons word words ih =>
      rw [classAttribute, List.foldl_cons]
      by_cases hword : word = attrLower
      · have hrest := ih (swishtag ++ Swish.dot :: attrValLower)
        rw [if_pos hword, hword, List.count_cons_self]
        simp only [List.length_append, List.length_cons, classAttribute] at hrest ⊢
        omega
      · rw [if_neg hword, List.count_cons_of_ne hword]
        exact ih swishtag

/-! ## Without class attributes -/

/-- The MetaName and the text of an attribute of a tag that stays as it is. -/
def attributePair (loc : Locale) (swishtag : XmlStr) (att : XmlStr × Option XmlStr) :
    XmlStr × XmlStr :=
  (swishtag ++ Swish.dot :: lowerName loc att.1, lowerName loc (att.2.getD []))

/-- No attribute is listed in `XMLClassAttributes`. -/
def NoClassAttribute (loc : Locale) (words : List XmlStr) (atts : Atts) : Prop :=
  ∀ att ∈ atts, lowerName loc att.1 ∉ words

theorem tagNamesStep_ok_iff {s s' : XmlStr × List (XmlStr × XmlStr)} :
    tagNamesStep env pd s att = .ok s' ↔ LowersAtt env.loc att ∧
      s'.1 = classAttribute (classWords pd.config) (lowerName env.loc att.1)
        (lowerName env.loc (att.2.getD [])) s.1 ∧
      s'.2 = s.2 ++ [attributePair env.loc s'.1 att] := by
  constructor
  · intro h
    obtain ⟨names, hnames, h⟩ := bind_ok_iff.mp h
    obtain ⟨hlowers, hfst, hsnd⟩ := attributeNames_ok_iff.mp hnames
    cases h
    exact ⟨hlowers, hfst, by rw [hsnd]; rfl⟩
  · rintro ⟨hlowers, hfst, hsnd⟩
    have hnames : attributeNames env pd s.1 att = .ok (s'.1, attributePair env.loc s'.1 att) :=
      attributeNames_ok_iff.mpr ⟨hlowers, hfst, rfl⟩
    rw [tagNamesStep, hnames]
    exact congrArg Except.ok (Prod.ext rfl hsnd.symm)

/-- The loop forms names for attributes that can be converted, and for no others. -/
theorem run_tagNamesStep_lowers {s s' : XmlStr × List (XmlStr × XmlStr)}
    (h : run (tagNamesStep env pd) s atts = .ok s') : ∀ att ∈ atts, LowersAtt env.loc att := by
  induction atts generalizing s with
  | nil => simp
  | cons att atts ih =>
      obtain ⟨t, hstep, hrest⟩ := run_cons_ok_iff.mp h
      rintro _ (_ | ⟨_, hmem⟩)
      · exact (tagNamesStep_ok_iff.mp hstep).1
      · exact ih hrest _ hmem

theorem exists_tagNamesStep (pd : ParserData) (h : LowersAtt env.loc att)
    (s : XmlStr × List (XmlStr × XmlStr)) : ∃ s', tagNamesStep env pd s att = .ok s' := by
  let named := classAttribute (classWords pd.config) (lowerName env.loc att.1)
    (lowerName env.loc (att.2.getD [])) s.1
  refine ⟨(named, s.2 ++ [attributePair env.loc named att]), ?_⟩
  exact tagNamesStep_ok_iff.mpr ⟨h, rfl, rfl⟩

theorem exists_run_tagNamesStep (pd : ParserData) (h : ∀ att ∈ atts, LowersAtt env.loc att)
    (s : XmlStr × List (XmlStr × XmlStr)) : ∃ s', run (tagNamesStep env pd) s atts = .ok s' := by
  induction atts generalizing s with
  | nil => exact ⟨s, rfl⟩
  | cons att atts ih =>
      obtain ⟨t, hstep⟩ := exists_tagNamesStep pd (h att List.mem_cons_self) s
      obtain ⟨s', hrest⟩ := ih (fun att' hmem => h att' (List.mem_cons_of_mem _ hmem)) t
      exact ⟨s', by rw [run_cons_of_ok hstep, hrest]⟩

/-- Without class attributes the tag stays as it is, and each attribute adds its own pair. -/
theorem run_tagNamesStep_noClass {s s' : XmlStr × List (XmlStr × XmlStr)}
    (hnot : NoClassAttribute env.loc (classWords pd.config) atts)
    (h : run (tagNamesStep env pd) s atts = .ok s') :
    s' = (s.1, s.2 ++ atts.map (attributePair env.loc s.1)) := by
  induction atts generalizing s with
  | nil => cases h; simp
  | cons att atts ih =>
      obtain ⟨t, hstep, hrest⟩ := run_cons_ok_iff.mp h
      obtain ⟨-, hfst, hsnd⟩ := tagNamesStep_ok_iff.mp hstep
      rw [classAttribute_of_not_mem (hnot att List.mem_cons_self)] at hfst
      rw [ih (fun att' hmem => hnot att' (List.mem_cons_of_mem _ hmem)) hrest, hfst, hsnd, hfst]
      simp

@[simp] theorem normalizeTag_withClassWords (words : List XmlStr) :
    normalizeTag env (withClassWords pd words) tag xmlnsPrefix =
      normalizeTag env pd tag xmlnsPrefix := rfl

@[simp] theorem aliasTag_withClassWords (words : List XmlStr) :
    aliasTag (withClassWords pd words) swishtag = aliasTag pd swishtag := rfl

theorem tagNames_ok_iff {names : XmlStr × List (XmlStr × XmlStr)} :
    tagNames env pd tag atts xmlnsPrefix = .ok names ↔
      ∃ swishtag s, normalizeTag env pd tag xmlnsPrefix = .ok swishtag ∧
        run (tagNamesStep env pd) (swishtag, []) atts = .ok s ∧
        names = (aliasTag pd s.1, s.2) := by
  constructor
  · intro h
    obtain ⟨swishtag, hnorm, h⟩ := bind_ok_iff.mp h
    obtain ⟨s, hrun, h⟩ := bind_ok_iff.mp h
    exact ⟨swishtag, s, hnorm, hrun, (Except.ok.inj h).symm⟩
  · rintro ⟨swishtag, s, hnorm, hrun, rfl⟩
    exact bind_ok_iff.mpr ⟨swishtag, hnorm, bind_ok_iff.mpr ⟨s, hrun, rfl⟩⟩

/-- Without class attributes the order does not matter. -/
theorem attributesUnordered_of_noClass {names : XmlStr × List (XmlStr × XmlStr)}
    (h : tagNames env pd tag atts xmlnsPrefix = .ok names)
    (hnot : NoClassAttribute env.loc (classWords pd.config) atts) :
    AttributesUnordered env pd tag atts xmlnsPrefix := by
  intro atts' words' hperm hwords
  obtain ⟨swishtag, s, hnorm, hrun, rfl⟩ := tagNames_ok_iff.mp h
  have hlowers : ∀ att ∈ atts', LowersAtt env.loc att :=
    fun att hmem => run_tagNamesStep_lowers hrun att (hperm.mem_iff.mp hmem)
  obtain ⟨s', hrun'⟩ :=
    exists_run_tagNamesStep (withClassWords pd words') hlowers (swishtag, [])
  have hnot' : NoClassAttribute env.loc (classWords (withClassWords pd words').config) atts' := by
    intro att hmem
    rw [classWords_withClassWords, hwords]
    exact hnot att (hperm.mem_iff.mp hmem)
  cases run_tagNamesStep_noClass hnot hrun
  cases run_tagNamesStep_noClass hnot' hrun'
  refine ⟨_, _, _, h, tagNames_ok_iff.mpr ⟨swishtag, _, hnorm, hrun', rfl⟩, ?_⟩
  exact ((hperm.map (attributePair env.loc swishtag)).filter _)

/-! ## With class attributes -/

theorem tagNamesStep_length {s s' : XmlStr × List (XmlStr × XmlStr)}
    (h : tagNamesStep env pd s att = .ok s') :
    s.1.length + (classWords pd.config).count (lowerName env.loc att.1) ≤ s'.1.length := by
  obtain ⟨-, hfst, -⟩ := tagNamesStep_ok_iff.mp h
  rw [hfst]
  exact length_classAttribute _ _ _ _

/-- The loop makes the tag longer by each listing of an attribute. -/
theorem run_tagNamesStep_length {s s' : XmlStr × List (XmlStr × XmlStr)} (hmem : att ∈ atts)
    (h : run (tagNamesStep env pd) s atts = .ok s') :
    s.1.length + (classWords pd.config).count (lowerName env.loc att.1) ≤ s'.1.length := by
  have hgrows : ∀ {t : XmlStr × List (XmlStr × XmlStr)} {rest : Atts},
      run (tagNamesStep env pd) t rest = .ok s' → t.1.length ≤ s'.1.length := by
    intro t rest hrest
    refine invariant (I := fun u => t.1.length ≤ u.1.length) ?_ (Nat.le_refl _) hrest
    intro u att' u' hle hstep
    have hlength := tagNamesStep_length hstep
    omega
  induction atts generalizing s with
  | nil => simp at hmem
  | cons first atts ih =>
      obtain ⟨t, hstep, hrest⟩ := run_cons_ok_iff.mp h
      have hlength := tagNamesStep_length hstep
      rcases List.mem_cons.mp hmem with rfl | hmem
      · have hle := hgrows hrest
        omega
      · have hle := ih hmem hrest
        omega

theorem length_flattenTagStack (flat : XmlStr) (tags : List Tag) :
    flat.length ≤ (tags.foldl (fun flat tag => tag.baked ++ Swish.dot :: flat) flat).length := by
  induction tags generalizing flat with
  | nil => exact Nat.le_refl _
  | cons tag tags ih =>
      have hrest := ih (tag.baked ++ Swish.dot :: flat)
      rw [List.length_append, List.length_cons] at hrest
      rw [List.foldl_cons]
      omega

/-- The names of the aliases, one behind the other. -/
def aliasLength (pd : ParserData) : Nat := (pd.config.tagAliases.keys.map List.length).sum

theorem lookup_tagAliases_long {name : XmlStr} (h : aliasLength pd < name.length) :
    pd.config.tagAliases.lookup name = none := by
  rw [AList.lookup_eq_none, AList.mem_keys]
  intro hkey
  have hle : name.length ≤ aliasLength pd :=
    List.le_sum_of_mem (List.mem_map_of_mem hkey)
  omega

/-- A tag that is longer than every alias stays as it is. -/
theorem aliasTag_long (h : aliasLength pd < swishtag.length) : aliasTag pd swishtag = swishtag := by
  have hflat : aliasLength pd < (flattenTagStack swishtag pd.domstack Swish.dot).length :=
    Nat.lt_of_lt_of_le h (length_flattenTagStack swishtag pd.domstack.tags)
  simp [aliasTag, lookup_tagAliases_long h, lookup_tagAliases_long hflat]

/-- A class attribute that is listed often enough changes the baked tag. -/
theorem noClass_of_attributesUnordered (h : AttributesUnordered env pd tag atts xmlnsPrefix) :
    NoClassAttribute env.loc (classWords pd.config) atts := by
  intro att hmem hclass
  obtain ⟨baked, pairs, -, hok, -⟩ := h atts (classWords pd.config) (.refl _) fun _ => .rfl
  -- more copies of the word than any alias, or the tag itself, has characters
  let word := lowerName env.loc att.1
  let n := aliasLength pd + baked.length + 1
  let words' := List.replicate n word ++ classWords pd.config
  have hwords : ∀ w, w ∈ words' ↔ w ∈ classWords pd.config := by
    intro w
    simp only [words', List.mem_append, List.mem_replicate]
    refine ⟨?_, .inr⟩
    rintro (⟨-, rfl⟩ | hw)
    · exact hclass
    · exact hw
  obtain ⟨baked', pairs₁, pairs', hok₁, hok', -⟩ := h atts words' (.refl _) hwords
  cases hok.symm.trans hok₁
  obtain ⟨swishtag, s, -, hrun, hnames⟩ := tagNames_ok_iff.mp hok'
  have hlong : n ≤ s.1.length := by
    have hlength := run_tagNamesStep_length hmem hrun
    rw [classWords_withClassWords, List.count_append, List.count_replicate_self] at hlength
    omega
  have hbaked : baked = s.1 := by
    have hfst : baked = aliasTag pd s.1 := congrArg Prod.fst hnames
    rw [hfst]
    exact aliasTag_long (by omega)
  have hself : n = aliasLength pd + s.1.length + 1 := by rw [← hbaked]
  omega

/-- The order of the attributes, and how often a name is listed, does not matter exactly when no
attribute is listed at all. -/
theorem attributesUnordered_iff {names : XmlStr × List (XmlStr × XmlStr)}
    (h : tagNames env pd tag atts xmlnsPrefix = .ok names) :
    AttributesUnordered env pd tag atts xmlnsPrefix ↔
      NoClassAttribute env.loc (classWords pd.config) atts := by
  constructor
  · exact noClass_of_attributesUnordered
  · exact attributesUnordered_of_noClass h

end Names

/-- The default config with a MetaName `foo.x` and `class` in `XMLClassAttributes`. -/
def classConfig : Config :=
  let c := configSetDefault (lit "C")
  { c with
    metanames := c.metanames.insert (lit "foo.x") (metanameInit (lit "foo.x"))
    stringlists := c.stringlists.insert Swish.classAttributes [lit "class"] }

/-- A document at its start, with this config. -/
def classDocument : ParserData := initParserData classConfig .idle docinfoInit

/-- In `<foo x="1" y="2">` no attribute is listed. -/
theorem attributesUnordered_plain :
    AttributesUnordered SaxEnv.alone.toTagEnv classDocument (lit "foo")
      [(lit "x", some (lit "1")), (lit "y", some (lit "2"))] none := by
  have hok : tagNames SaxEnv.alone.toTagEnv classDocument (lit "foo")
      [(lit "x", some (lit "1")), (lit "y", some (lit "2"))] none =
        .ok (lit "foo", [(lit "foo.x", lit "1"), (lit "foo.y", lit "2")]) := rfl
  refine (attributesUnordered_iff hok).mpr ?_
  unfold NoClassAttribute
  decide

/-- `<foo x="1" class="bar">` adds a text to `foo.x`, and `<foo class="bar" x="1">` does not. -/
theorem not_attributesUnordered_class :
    (¬ AttributesUnordered SaxEnv.alone.toTagEnv classDocument (lit "foo")
        [(lit "x", some (lit "1")), (lit "class", some (lit "bar"))] none) ∧
      (∃ pd, openTag SaxEnv.alone.toTagEnv classDocument (lit "foo")
          (some [(lit "x", some (lit "1")), (lit "class", some (lit "bar"))]) none = .ok pd ∧
        pd.metanames.content (lit "foo.x") = lit "1") ∧
      ∃ pd, openTag SaxEnv.alone.toTagEnv classDocument (lit "foo")
          (some [(lit "class", some (lit "bar")), (lit "x", some (lit "1"))]) none = .ok pd ∧
        pd.metanames.content (lit "foo.x") = [] := by
  refine ⟨fun h => ?_, exists_ok_of_map rfl, exists_ok_of_map rfl⟩
  obtain ⟨baked, pairs, pairs', hok, hok', hperm⟩ :=
    h [(lit "class", some (lit "bar")), (lit "x", some (lit "1"))] [lit "class"] (.swap _ _ _)
      fun _ => .rfl
  have hpairs : tagNames SaxEnv.alone.toTagEnv classDocument (lit "foo")
      [(lit "x", some (lit "1")), (lit "class", some (lit "bar"))] none =
        .ok (lit "foo.bar", [(lit "foo.x", lit "1"), (lit "foo.bar.class", lit "bar")]) := rfl
  have hpairs' : tagNames SaxEnv.alone.toTagEnv (withClassWords classDocument [lit "class"])
      (lit "foo") [(lit "class", some (lit "bar")), (lit "x", some (lit "1"))] none =
        .ok (lit "foo.bar", [(lit "foo.bar.class", lit "bar"), (lit "foo.bar.x", lit "1")]) := rfl
  cases hpairs.symm.trans hok
  cases hpairs'.symm.trans hok'
  have hlength := hperm.length_eq
  revert hlength
  decide

/-! ## The loop of `bake_tag` -/

/-- The settings of the attribute loop are the same. -/
structure SameAttributes (c c' : Config) : Prop where
  stringlists : c'.stringlists = c.stringlists
  undefAttrs : c'.flags.undefAttrs = c.flags.undefAttrs

/-- The pair of an attribute that the loop finds to be a MetaName. -/
def contribution (env : TagEnv) (s : ParserData × XmlStr) (att : XmlStr × Option XmlStr) :
    List (XmlStr × XmlStr) :=
  match attributeNames env s.1 s.2 att with
  | .ok names => if metanameAtt env s att = 1 then [names.2] else []
  | .error _ => []

/-- What the loop leaves alone. -/
structure LoopFrame (pd₀ pd : ParserData) : Prop where
  settings : SameAttributes pd₀.config pd.config
  grows : Grows pd₀.config pd.config
  domstack : pd.domstack = pd₀.domstack

/-- How a parser is related to the one before the loop.  Once a tag has been nested the config may
know more names, but no other tag can be nested. -/
structure InLoop (pd₀ pd : ParserData) : Prop extends LoopFrame pd₀ pd where
  held : TagHeld pd → ∀ metaname, Contributes pd.config metaname → Contributes pd₀.config metaname

section Loop

variable {env : TagEnv} {pd₀ pd pd' : ParserData} {tag name content : XmlStr}
  {att : XmlStr × Option XmlStr} {atts : Atts} {xmlnsPrefix : Option XmlStr}

theorem SameAttributes.trans {c₁ c₂ c₃ : Config} (h : SameAttributes c₁ c₂)
    (h' : SameAttributes c₂ c₃) : SameAttributes c₁ c₃ :=
  ⟨h'.stringlists.trans h.stringlists, h'.undefAttrs.trans h.undefAttrs⟩

theorem metanameNew_settings {c c' : Config} (h : metanameNew name c = .ok c') :
    SameAttributes c c' := by
  obtain ⟨metaIds, -, h⟩ := bind_ok_iff.mp h
  obtain ⟨metanames, -, h⟩ := bind_ok_iff.mp h
  cases h
  exact ⟨rfl, rfl⟩

theorem propertyNew_settings {c c' : Config} (h : propertyNew name c = .ok c') :
    SameAttributes c c' := by
  obtain ⟨propIds, -, h⟩ := bind_ok_iff.mp h
  obtain ⟨properties, -, h⟩ := bind_ok_iff.mp h
  cases h
  exact ⟨rfl, rfl⟩

theorem sameAttributes_textSteps (c : Config) :
    TextSteps (fun _ _ _ => True) fun pd => SameAttributes c pd.config where
  tag _ _ h := h
  bumpWord _ _ h := h
  ignoreContent _ _ h := h
  characters pd ch h := by
    rw [bufferCharacters_config]
    exact h
  autoMetaname _ _ _ h hok := by
    obtain ⟨config, hnew, rfl⟩ := autoMetaname_new hok
    exact h.trans (metanameNew_settings hnew)
  autoProperty _ _ _ h hok := by
    rcases autoProperty_new hok with rfl | ⟨config, hnew, rfl⟩
    · exact h
    · exact h.trans (propertyNew_settings hnew)
  push _ _ _ _ h _ hok := by
    obtain ⟨-, -, hconfig, -⟩ := pushTags_ok hok
    rw [hconfig]
    exact h
  pop _ _ _ h hok := by
    obtain ⟨_, _, _, -, -, -, hconfig, -⟩ := popTags_ok hok
    rw [hconfig]
    exact h

/-- A nested tag leaves the stack of open elements as it was. -/
theorem nestedTag_domstack (hcounted : pd.domstack.Counted)
    (hok : nestedTag env pd name content xmlnsPrefix = .ok pd') : pd'.domstack = pd.domstack := by
  obtain ⟨pd₁, pd₂, hopen, hclose, rfl⟩ := nestedTag_ok hok
  obtain ⟨pd₃, baked, hbake, hpush⟩ := openTagPlain_ok hopen
  obtain ⟨pd₄, baked', hbake', hpop⟩ := closeTag_ok hclose
  obtain ⟨n, hcalm⟩ := hbake.calm
  obtain ⟨n', hcalm'⟩ := hbake'.calm
  obtain ⟨-, -, -, hpushed⟩ := pushTags_ok hpush
  obtain ⟨_, _, _, -, -, hpopped, -, -⟩ := popTags_ok hpop
  have hdom₄ : pd₄.domstack = pd.domstack.push name baked Swish.dot :=
    (hcalm'.domstack.trans (bufferCharacters_calm pd₁ content).domstack).trans
      (hpushed.domstack.trans (congrArg (TagStack.push · name baked Swish.dot) hcalm.domstack))
  rw [hdom₄, TagStack.pop_cons hcounted.push TagStack.push_tags] at hpopped
  have hrest : pd₂.domstack = ⟨pd.domstack.tags, pd.domstack.count + 1 - 1⟩ :=
    (congrArg Prod.snd hpopped).symm
  simp [hrest]

theorem autoMetaname_mem (h : autoMetaname pd name = .ok pd') : name ∈ pd'.config.metanames := by
  obtain ⟨config, hnew, rfl⟩ := autoMetaname_new h
  obtain ⟨metaIds, -, hnew⟩ := bind_ok_iff.mp hnew
  obtain ⟨metanames, hadd, hnew⟩ := bind_ok_iff.mp hnew
  obtain ⟨-, rfl⟩ := hashAdd_ok_iff.mp hadd
  cases hnew
  exact (AList.mem_insert _).mpr (.inl rfl)

/-- Behind the switch an attribute is a MetaName if it was one or the switch makes it one, and
else the config is as before. -/
theorem undefXmlAttr_mem_iff {value : XmlStr} (h : undefXmlAttr pd name value = .ok pd') :
    (name ∈ pd'.config.metanames ↔ Contributes pd.config name) ∧
      (¬ Contributes pd.config name → pd'.config = pd.config) := by
  cases undefXmlAttr_switch h with
  | defined hmem => exact ⟨iff_of_true hmem (.inl hmem), fun _ => rfl⟩
  | skipped hnot hmode => rcases hmode with hmode | hmode <;> simp [Contributes, hnot, hmode]
  | auto _ hmode hmeta => simpa [Contributes, hmode] using autoMetaname_mem hmeta
  | autoall _ hmode hmeta hprop =>
      have hgrows := (autoProperty_calm hprop).config
      simpa [Contributes, hmode] using hgrows.metanames _ (autoMetaname_mem hmeta)
  | index hnot hmode => simp [Contributes, bufferCharacters_config, hnot, hmode]

theorem Contributes.inLoop (h : LoopFrame pd₀ pd) (hcontributes : Contributes pd₀.config name) :
    Contributes pd.config name := by
  rw [Contributes, h.settings.undefAttrs]
  exact hcontributes.imp_left (h.grows.metanames name)

theorem attributeNames_congr {swishtag : XmlStr} (h : SameAttributes pd₀.config pd.config) :
    attributeNames env pd swishtag att = attributeNames env pd₀ swishtag att := by
  simp only [attributeNames, h.stringlists]

theorem LoopFrame.undefXmlAttr {value : XmlStr} (h : LoopFrame pd₀ pd)
    (hok : undefXmlAttr pd name value = .ok pd') : LoopFrame pd₀ pd' where
  settings := (sameAttributes_textSteps pd₀.config).undefXmlAttr h.settings hok
  grows := h.grows.trans (undefXmlAttr_calm hok).config
  domstack := (undefXmlAttr_calm hok).domstack.trans h.domstack

theorem LoopFrame.nestedTag (hcounted : pd₀.domstack.Counted) (h : LoopFrame pd₀ pd)
    (hok : nestedTag env pd name content xmlnsPrefix = .ok pd') : LoopFrame pd₀ pd' where
  settings := (sameAttributes_textSteps pd₀.config).tagSteps.nestedTag h.settings
    plainMeets_free hok
  grows := (grows_tagKept pd₀.config).steps.nestedTag h.grows plainMeets_free hok
  domstack := (nestedTag_domstack (h.domstack ▸ hcounted) hok).trans h.domstack

/-- One attribute: the pure loop forms the same names, and the pair counts exactly if a tag is
nested. -/
theorem bakeAttribute_inLoop {s s' : ParserData × XmlStr} (hcounted : pd₀.domstack.Counted)
    (h : InLoop pd₀ s.1) (hok : bakeAttribute env xmlnsPrefix s att = .ok s') :
    InLoop pd₀ s'.1 ∧ ∃ pair,
      (∀ pairs, tagNamesStep env pd₀ (s.2, pairs) att = .ok (s'.2, pairs ++ [pair])) ∧
      contribution env s att = contributed pd₀.config [pair] := by
  obtain ⟨⟨swishtag, metaname, value⟩, hnames, hok⟩ := bind_ok_iff.mp hok
  obtain ⟨pd₁, hundef, hok⟩ := bind_ok_iff.mp hok
  obtain ⟨pd₂, htag, hok⟩ := bind_ok_iff.mp hok
  cases hok
  obtain ⟨hmem, hsame⟩ := undefXmlAttr_mem_iff hundef
  have hstep : ∀ pairs, tagNamesStep env pd₀ (s.2, pairs) att =
      .ok (swishtag, pairs ++ [(metaname, value)]) := by
    intro pairs
    rw [tagNamesStep, ← attributeNames_congr h.settings, hnames]
    rfl
  have hfound : contribution env s att =
      if metaname ∈ pd₁.config.metanames then [(metaname, value)] else [] := by
    simp only [contribution, metanameAtt, hnames, hundef]
    split <;> simp
  rw [attributeTag] at htag
  by_cases hcontributes : Contributes s.1.config metaname
  · rw [if_pos (hmem.mpr hcontributes)] at htag hfound
    have hheld : TagHeld s.1 := by
      intro hfreed
      rw [nestedTag_freed ((undefXmlAttr_tag hundef).trans hfreed)] at htag
      cases htag
    have hframe := (h.toLoopFrame.undefXmlAttr hundef).nestedTag hcounted htag
    obtain ⟨pd₃, pd₄, -, -, rfl⟩ := nestedTag_ok htag
    refine ⟨⟨hframe, fun hheld' => absurd rfl hheld'⟩, (metaname, value), hstep, ?_⟩
    rw [hfound, contributed, List.filter_singleton]
    simp [h.held hheld metaname hcontributes]
  · rw [if_neg (mt hmem.mp hcontributes)] at htag hfound
    cases htag
    have hnot : ¬ Contributes pd₀.config metaname :=
      fun hcontributes₀ => hcontributes (hcontributes₀.inLoop h.toLoopFrame)
    refine ⟨⟨h.toLoopFrame.undefXmlAttr hundef, ?_⟩, (metaname, value), hstep, ?_⟩
    · rw [hsame hcontributes, TagHeld, undefXmlAttr_tag hundef]
      exact h.held
    · rw [hfound, contributed, List.filter_singleton]
      simp [hnot]

/-- Note the pair of an attribute that is a MetaName. -/
def noteContribution (env : TagEnv) (s : ParserData × XmlStr) (att : XmlStr × Option XmlStr)
    (_ : ParserData × XmlStr) (pairs : List (XmlStr × XmlStr)) : List (XmlStr × XmlStr) :=
  pairs ++ contribution env s att

theorem run_bakeAttribute_inLoop {s s' : ParserData × XmlStr} {pairs noted : List (XmlStr × XmlStr)}
    (hcounted : pd₀.domstack.Counted) (h : InLoop pd₀ s.1)
    (hok : run (bakeAttribute env xmlnsPrefix) s atts = .ok s') :
    InLoop pd₀ s'.1 ∧ ∃ pairs',
      run (tagNamesStep env pd₀) (s.2, pairs) atts = .ok (s'.2, pairs ++ pairs') ∧
      run (withGhost (bakeAttribute env xmlnsPrefix) (noteContribution env)) (s, noted) atts =
        .ok (s', noted ++ contributed pd₀.config pairs') := by
  induction atts generalizing s pairs noted with
  | nil =>
      cases hok
      exact ⟨h, [], by simp [run], by simp [run, contributed]⟩
  | cons att atts ih =>
      obtain ⟨t, hstep, hrest⟩ := run_cons_ok_iff.mp hok
      obtain ⟨hloop, pair, hnames, hnoted⟩ := bakeAttribute_inLoop hcounted h hstep
      obtain ⟨hloop', pairs', hrun, hghost⟩ := ih hloop hrest
      refine ⟨hloop', pair :: pairs', ?_, ?_⟩
      · rw [run_cons_of_ok (hnames pairs), hrun, List.append_assoc, List.singleton_append]
      · have hcons : contributed pd₀.config (pair :: pairs') =
            contributed pd₀.config [pair] ++ contributed pd₀.config pairs' :=
          List.filter_append [pair] pairs'
        rw [run_cons_of_ok (withGhost_ok_iff.mpr ⟨hstep, rfl⟩), noteContribution, hnoted, hghost,
          hcons, List.append_assoc]

/-- `bake_tag` of an XML element returns the tag that the pure loop forms, and the tags that it
nests are those of the contributed pairs. -/
theorem bakeTag_tagNames {baked : Option XmlStr} (hxml : pd.isHtml = false)
    (hcounted : pd.domstack.Counted)
    (hok : bakeTag env pd tag (some atts) xmlnsPrefix = .ok (baked, pd')) :
    ∃ swishtag s' name pairs, normalizeTag env pd tag xmlnsPrefix = .ok swishtag ∧
      baked = some name ∧ tagNames env pd tag atts xmlnsPrefix = .ok (name, pairs) ∧
      run (withGhost (bakeAttribute env xmlnsPrefix) (noteContribution env))
        (({ pd with bumpWord := true }, swishtag), []) atts =
          .ok (s', contributed pd.config pairs) := by
  obtain ⟨swishtag, hnorm, hok⟩ := bind_ok_iff.mp hok
  rw [if_neg (by simp [hxml])] at hok
  obtain ⟨s', hrun, hok⟩ := bind_ok_iff.mp hok
  obtain ⟨pd₁, hundef, hok⟩ := bind_ok_iff.mp hok
  cases hok
  have hinit : InLoop pd { pd with bumpWord := true } :=
    ⟨⟨⟨rfl, rfl⟩, .refl _, rfl⟩, fun _ _ h => h⟩
  obtain ⟨hloop, pairs, hnames, hghost⟩ := run_bakeAttribute_inLoop hcounted hinit hrun
  obtain ⟨n, hcalm⟩ := undefXmlTag_calm hundef
  refine ⟨swishtag, s', aliasTag pd s'.2, pairs, hnorm, ?_, ?_, hghost⟩
  · rw [aliasTag, aliasTag, hcalm.config.tagAliases, hcalm.domstack, hloop.grows.tagAliases,
      hloop.domstack]
  · exact tagNames_ok_iff.mpr ⟨swishtag, _, hnorm, hnames, rfl⟩

end Loop

end LibSwish3
