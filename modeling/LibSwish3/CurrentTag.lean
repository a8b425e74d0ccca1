import LibSwish3.Nested

/-!
# The current tag

`parser_data->tag` points to the baked name of the tag at hand.  `open_tag` and `close_tag`
release the string and reset the pointer before they bake the next name.  A tag that is nested in
another, the name of an HTML `<meta>` element or an attribute of an XML element, goes through
both of them from inside `bake_tag`, which releases the string itself and leaves the pointer as
it is.  The caller of `bake_tag` overwrites it; but a second attribute of the same element is
opened with the pointer to the released string.

## Main definitions

* `TagHeld` — the string has not been released.
* `EventOnce` — an event releases no string a second time.
* `EventOneMeta` — at most one attribute of an element is a MetaName.
* `ReleasedOnce`, `OneMetaEach` — the same of a parse.
-/

namespace LibSwish3

open Runs Tables

/-- `parser_data->tag` does not point to a released string. -/
def TagHeld (pd : ParserData) : Prop := pd.tag ≠ .freed

/-! ## Where the string is released, compared and pushed -/

section Once

variable (env : TagEnv)

/-- A call without attributes: `open_tag` or `close_tag` releases the string, bakes the tag and
brings it to the stacks. -/
def PlainOnce (pd : ParserData) (tag : XmlStr) (xmlnsPrefix : Option XmlStr) : Prop :=
  TagHeld pd ∧
    ∀ pd₁ baked, BakesPlain env pd tag xmlnsPrefix pd₁ baked → TagHeld pd₁

/-- A tag that is opened, filled and closed, and its name released, from inside `bake_tag`. -/
def NestedOnce (pd : ParserData) (metaname : XmlStr) (xmlnsPrefix : Option XmlStr) : Prop :=
  PlainOnce env { pd with bumpWord := true } metaname xmlnsPrefix ∧
    ∀ pd₁ content, openTagPlain env { pd with bumpWord := true } metaname xmlnsPrefix = .ok pd₁ →
      PlainOnce env (bufferCharacters pd₁ content) metaname xmlnsPrefix ∧
        ∀ pd₂, closeTag env (bufferCharacters pd₁ content) metaname xmlnsPrefix = .ok pd₂ →
          TagHeld pd₂

/-- `open_tag`, with the tags that `bake_tag` nests in it. -/
structure OpenOnce (pd : ParserData) (tag : XmlStr) (atts : Option Atts)
    (xmlnsPrefix : Option XmlStr) : Prop where
  frees : TagHeld pd
  bakes : BakeMeets env (NestedOnce env) (fun _ _ => True) { pd with tag := .null } tag atts
    xmlnsPrefix
  pushes : ∀ baked pd₁,
    bakeTag env { pd with tag := .null } tag atts xmlnsPrefix = .ok (baked, pd₁) →
      TagHeld { pd₁ with tag := tagPtr baked }

end Once

/-- An event releases no string a second time, and neither compares nor pushes a released one. -/
def EventOnce (env : SaxEnv) (xinclude : ParserData → XmlStr → Bool → Swish ParserData)
    (pd : ParserData) : SaxEvent → Prop
  | .startElement name atts => OpenOnce env.toTagEnv pd name atts none
  | .endElement name => PlainOnce env.toTagEnv pd name none
  | .startElementNs localname xmlnsPrefix uri attributes =>
    ∀ pd₁, startXinclude env xinclude pd localname uri (sax2Atts attributes) = .ok pd₁ →
      OpenOnce env.toTagEnv pd₁ localname (sax2Atts attributes) xmlnsPrefix
  | .endElementNs localname xmlnsPrefix => PlainOnce env.toTagEnv pd localname xmlnsPrefix
  | .startDocument | .endDocument | .characters _ | .comment _ => True

/-- A parse, and the end of it, releases no string a second time; neither do the parses of the
documents it includes. -/
def ReleasedOnce (env : SaxEnv) (fuel : Nat) (pd : ParserData) (events : List SaxEvent) : Prop :=
  Steps (saxStep env fuel)
      (DeepMeets env (fun fuel => EventOnce env (xincludeDeep env fuel)) (fun _ => True)
        (fun _ child => TagHeld child) fuel) pd events ∧
    ∀ pd', run (saxStep env fuel) pd events = .ok pd' → TagHeld pd'

/-! ## Attributes that are MetaNames -/

/-- Whether an attribute is a MetaName, or becomes one, when the loop of `bake_tag` gets to it. -/
def metanameAtt (env : TagEnv) (s : ParserData × XmlStr) (att : XmlStr × Option XmlStr) : Nat :=
  match attributeNames env s.1 s.2 att with
  | .error _ => 0
  | .ok (_, metanameFromAttr, attrValLower) =>
    match undefXmlAttr s.1 metanameFromAttr attrValLower with
    | .error _ => 0
    | .ok pd => if metanameFromAttr ∈ pd.config.metanames then 1 else 0

/-- At most one attribute of an XML element is a MetaName. -/
def OneMeta (env : TagEnv) (pd : ParserData) (tag : XmlStr) (atts : Option Atts)
    (xmlnsPrefix : Option XmlStr) : Prop :=
  pd.isHtml = false → ∀ swishtag, normalizeTag env pd tag xmlnsPrefix = .ok swishtag →
    cost (bakeAttribute env xmlnsPrefix) (metanameAtt env)
      ({ pd with tag := .null, bumpWord := true }, swishtag) (atts.getD []) ≤ 1

/-- The same of the element of an event. -/
def EventOneMeta (env : SaxEnv) (xinclude : ParserData → XmlStr → Bool → Swish ParserData)
    (pd : ParserData) : SaxEvent → Prop
  | .startElement name atts => OneMeta env.toTagEnv pd name atts none
  | .startElementNs localname xmlnsPrefix uri attributes =>
    ∀ pd₁, startXinclude env xinclude pd localname uri (sax2Atts attributes) = .ok pd₁ →
      OneMeta env.toTagEnv pd₁ localname (sax2Atts attributes) xmlnsPrefix
  | .endElement _ | .endElementNs _ _ | .startDocument | .endDocument | .characters _
  | .comment _ => True

/-- The same of each element of a parse and of the documents it includes. -/
def OneMetaEach (env : SaxEnv) (fuel : Nat) (pd : ParserData) (events : List SaxEvent) : Prop :=
  Steps (saxStep env fuel)
    (DeepMeets env (fun fuel => EventOneMeta env (xincludeDeep env fuel)) (fun _ => True)
      (fun _ _ => True) fuel) pd events

/-! ## What becomes of the pointer -/

section Tag

variable {env : TagEnv} {pd pd' : ParserData} {name content : XmlStr}
  {xmlnsPrefix : Option XmlStr}

theorem tagHeld_tagPtr (baked : Option XmlStr) : tagPtr baked ≠ .freed := by
  cases baked <;> simp [tagPtr]

@[simp] theorem bufferCharacters_tag (pd : ParserData) (ch : XmlStr) :
    (bufferCharacters pd ch).tag = pd.tag := by
  rw [bufferCharacters]
  split <;> rfl

theorem flushBuffer_tag {metaname context : XmlStr}
    (h : flushBuffer pd metaname context = .ok pd') : pd'.tag = pd.tag := by
  obtain ⟨metanames, tokens, nwords, rfl⟩ := flushBuffer_ok h
  rfl

theorem flushHead_tag (h : flushHead pd = .ok pd') : pd'.tag = pd.tag := by
  obtain ⟨top, -, h⟩ := bind_ok_iff.mp h
  exact flushBuffer_tag h

theorem pushTags_tag {tag : Option XmlStr} (h : pushTags pd name tag = .ok pd') :
    pd'.tag = pd.tag := by
  obtain ⟨top, -, h⟩ := bind_ok_iff.mp h
  obtain ⟨pd₁, hprop, h⟩ := bind_ok_iff.mp h
  obtain ⟨metanames, tokens, nwords, metaBuf, metastack, rfl⟩ := pushMetaname_fields h
  show pd₁.tag = pd.tag
  unfold pushProperty at hprop
  split at hprop
  · obtain ⟨pd₂, hadd, hprop⟩ := bind_ok_iff.mp hprop
    obtain ⟨baked, -, hprop⟩ := bind_ok_iff.mp hprop
    obtain ⟨properties, rfl⟩ := addStackToPropBuf_ok hadd
    cases hprop
    rfl
  · cases hprop
    rfl

theorem popTags_tag (h : popTags pd name = .ok pd') : pd'.tag = pd.tag := by
  obtain ⟨pd₁, hprop, h⟩ := bind_ok_iff.mp h
  obtain ⟨pd₂, hmeta, h⟩ := bind_ok_iff.mp h
  obtain ⟨metanames, tokens, nwords, metaBuf, metastack, rfl⟩ := popMetaname_fields hmeta
  have hpopped : pd₁.tag = pd.tag := by
    obtain ⟨⟨st, propstack⟩, -, hprop⟩ := bind_ok_iff.mp hprop
    cases st with
    | none => cases hprop; rfl
    | some st =>
        obtain ⟨properties, rfl⟩ := addStackToPropBuf_ok hprop
        rfl
  rw [← hpopped]
  split at h
  · cases h
  · cases h
    rfl

theorem openTagPlain_tag (h : openTagPlain env pd name xmlnsPrefix = .ok pd') :
    ∃ baked, pd'.tag = .live baked := by
  obtain ⟨pd₁, baked, hbake, hpush⟩ := openTagPlain_ok h
  obtain ⟨swishtag, pd₂, -, -, -, rfl⟩ := hbake
  exact ⟨baked, pushTags_tag hpush⟩

theorem closeTag_tag (h : closeTag env pd name xmlnsPrefix = .ok pd') :
    ∃ baked, pd'.tag = .live baked := by
  obtain ⟨pd₁, baked, hbake, hpop⟩ := closeTag_ok h
  obtain ⟨swishtag, pd₂, -, -, -, rfl⟩ := hbake
  exact ⟨baked, popTags_tag hpop⟩

theorem openTag_tag {atts : Option Atts} (h : openTag env pd name atts xmlnsPrefix = .ok pd') :
    ∃ baked, pd'.tag = tagPtr baked := by
  obtain ⟨baked, pd₁, -, hpush⟩ := openTag_ok h
  exact ⟨baked, pushTags_tag hpush⟩

theorem tagHeld_of_live {baked : XmlStr} (h : pd.tag = .live baked) : TagHeld pd := by
  simp [TagHeld, h]

/-- Once the string is released, no tag can be nested. -/
theorem nestedTag_freed (h : pd.tag = .freed) :
    nestedTag env pd name content xmlnsPrefix = .error (.fault .useAfterFree) := by
  simp [nestedTag, openTagPlain, freeTag, h]

/-! ### Undefined names -/

theorem autoMetaname_tag (h : autoMetaname pd name = .ok pd') : pd'.tag = pd.tag := by
  obtain ⟨config, -, -, rfl⟩ := autoMetaname_ok h
  rfl

theorem autoProperty_tag (h : autoProperty pd name = .ok pd') : pd'.tag = pd.tag := by
  rcases autoProperty_ok h with rfl | ⟨config, -, -, -, rfl⟩ <;> rfl

theorem undefXmlAttr_tag {value : XmlStr} (h : undefXmlAttr pd name value = .ok pd') :
    pd'.tag = pd.tag := by
  cases undefXmlAttr_switch h with
  | defined | skipped => rfl
  | auto _ _ hmeta => exact autoMetaname_tag hmeta
  | autoall _ _ hmeta hprop => exact (autoProperty_tag hprop).trans (autoMetaname_tag hmeta)
  | index => exact bufferCharacters_tag { pd with bumpWord := true } value

theorem undefHtmlMeta_tag (h : undefHtmlMeta pd name = .ok pd') : pd'.tag = pd.tag := by
  cases undefHtmlMeta_switch h with
  | defined | ignore | index => rfl
  | auto _ hmeta => exact autoMetaname_tag hmeta
  | autoall _ hmeta hprop => exact (autoProperty_tag hprop).trans (autoMetaname_tag hmeta)

end Tag

/-! ## One tag -/

section OneTag

variable {env : TagEnv} {pd : ParserData} {name : XmlStr} {xmlnsPrefix : Option XmlStr}

theorem plainOnce_iff : PlainOnce env pd name xmlnsPrefix ↔ TagHeld pd := by
  constructor
  · exact fun h => h.1
  · intro h
    refine ⟨h, ?_⟩
    rintro pd₁ baked ⟨swishtag, pd₂, -, -, -, rfl⟩
    exact tagHeld_of_live rfl

theorem nestedOnce_iff : NestedOnce env pd name xmlnsPrefix ↔ TagHeld pd := by
  constructor
  · exact fun h => (plainOnce_iff.mp h.1 : TagHeld { pd with bumpWord := true })
  · intro h
    have hopens : TagHeld { pd with bumpWord := true } := h
    refine ⟨plainOnce_iff.mpr hopens, ?_⟩
    intro pd₁ content hopen
    obtain ⟨baked, htag⟩ := openTagPlain_tag hopen
    have hheld : TagHeld (bufferCharacters pd₁ content) := by simp [TagHeld, htag]
    refine ⟨plainOnce_iff.mpr hheld, ?_⟩
    intro pd₂ hclose
    obtain ⟨baked', htag'⟩ := closeTag_tag hclose
    exact tagHeld_of_live htag'

/-- How many strings the pointer has left behind. -/
def releasedTag (pd : ParserData) : Nat :=
  match pd.tag with
  | .freed => 1
  | .null | .live _ => 0

theorem releasedTag_congr {pd' : ParserData} (h : pd'.tag = pd.tag) :
    releasedTag pd' = releasedTag pd := by
  rw [releasedTag, releasedTag, h]

theorem tagHeld_iff : TagHeld pd ↔ releasedTag pd = 0 := by
  rw [TagHeld, releasedTag]
  cases pd.tag <;> simp

theorem releasedTag_le (pd : ParserData) : releasedTag pd ≤ 1 := by
  rw [releasedTag]
  split <;> simp

/-- An attribute is safe unless it is a MetaName behind another one. -/
theorem attributeOnce_iff {s : ParserData × XmlStr} {att : XmlStr × Option XmlStr} :
    AttributeMeets env (NestedOnce env) xmlnsPrefix s att ↔
      releasedTag s.1 + metanameAtt env s att ≤ 1 := by
  have hle := releasedTag_le s.1
  constructor
  · intro h
    rw [metanameAtt]
    split
    · omega
    · rename_i names hnames
      split
      · omega
      · rename_i pd₁ hundef
        split
        · rename_i hmem
          have hheld := nestedOnce_iff.mp (h _ _ _ pd₁ hnames hundef hmem)
          have hzero := tagHeld_iff.mp hheld
          rw [releasedTag_congr (undefXmlAttr_tag hundef)] at hzero
          omega
        · omega
  · intro h swishtag metanameFromAttr attrValLower pd₁ hnames hundef hmem
    have hone : metanameAtt env s att = 1 := by
      simp [metanameAtt, hnames, hundef, hmem]
    refine nestedOnce_iff.mpr (tagHeld_iff.mpr ?_)
    rw [releasedTag_congr (undefXmlAttr_tag hundef)]
    omega

/-- An attribute that is a MetaName leaves the pointer to a released string. -/
theorem bakeAttribute_released {s s' : ParserData × XmlStr} {att : XmlStr × Option XmlStr}
    (h : bakeAttribute env xmlnsPrefix s att = .ok s') :
    releasedTag s'.1 = releasedTag s.1 + metanameAtt env s att := by
  obtain ⟨⟨swishtag, metanameFromAttr, attrValLower⟩, hnames, h⟩ := bind_ok_iff.mp h
  obtain ⟨pd₁, hundef, h⟩ := bind_ok_iff.mp h
  obtain ⟨pd₂, htag, h⟩ := bind_ok_iff.mp h
  cases h
  have hsame : releasedTag pd₁ = releasedTag s.1 := releasedTag_congr (undefXmlAttr_tag hundef)
  simp only [metanameAtt, hnames, hundef]
  unfold attributeTag at htag
  split at htag
  · rename_i hmem
    rw [if_pos hmem]
    have hzero : releasedTag pd₁ = 0 := by
      refine tagHeld_iff.mp fun hfreed => ?_
      rw [nestedTag_freed hfreed] at htag
      cases htag
    obtain ⟨pd₃, pd₄, -, -, rfl⟩ := nestedTag_ok htag
    rw [← hsame, hzero]
    rfl
  · rename_i hmem
    cases htag
    rw [if_neg hmem, hsame, Nat.add_zero]

/-- The loop over the attributes is safe exactly when it meets at most one MetaName, none where
the string has been released before. -/
theorem attributesOnce_iff {s : ParserData × XmlStr} {atts : Atts} :
    Steps (bakeAttribute env xmlnsPrefix) (AttributeMeets env (NestedOnce env) xmlnsPrefix) s
        atts ↔
      releasedTag s.1 + cost (bakeAttribute env xmlnsPrefix) (metanameAtt env) s atts ≤ 1 := by
  induction atts generalizing s with
  | nil => exact iff_of_true steps_nil (releasedTag_le s.1)
  | cons att atts ih =>
      rw [steps_cons_iff, attributeOnce_iff]
      cases hstep : bakeAttribute env xmlnsPrefix s att with
      | ok s' =>
          have hafter := bakeAttribute_released hstep
          rw [cost_cons_of_ok hstep]
          constructor
          · rintro ⟨-, hrest⟩
            have htail := ih.mp (hrest s' rfl)
            omega
          · intro h
            refine ⟨by omega, ?_⟩
            rintro _ ⟨⟩
            exact ih.mpr (by omega)
      | error x =>
          rw [cost_cons_of_error hstep]
          refine and_iff_left ?_
          intro s' h
          cases h

/-- The names of HTML `<meta>` elements are always safe. -/
theorem openOnce_iff {atts : Option Atts} (hheld : TagHeld pd) :
    OpenOnce env pd name atts xmlnsPrefix ↔ OneMeta env pd name atts xmlnsPrefix := by
  constructor
  · intro h hxml swishtag hnorm
    obtain ⟨hsteps, -⟩ := (h.bakes swishtag hnorm).2 hxml
    exact Nat.le_trans (Nat.le_add_left _ _) (attributesOnce_iff.mp hsteps)
  · intro h
    refine ⟨hheld, ?_, fun baked pd₁ _ => tagHeld_tagPtr baked⟩
    intro swishtag hnorm
    constructor
    · intro _ metaname metacontent _ pd₁ hundef
      obtain ⟨b, hbump⟩ := htmlBump_eq env { pd with tag := .null } swishtag
      rw [hbump] at hundef
      have htag : pd₁.tag = .null := undefHtmlMeta_tag hundef
      exact nestedOnce_iff.mpr (by simp [TagHeld, htag])
    · intro hxml
      refine ⟨attributesOnce_iff.mpr ?_, fun _ _ => trivial⟩
      show 0 + cost _ _ _ _ ≤ 1
      rw [Nat.zero_add]
      exact h hxml swishtag hnorm

end OneTag

/-! ## Events -/

section Events

variable {env : SaxEnv} {xinclude : ParserData → XmlStr → Bool → Swish ParserData}
  {pd pd' : ParserData} {uri : XmlStr} {isText : Bool}

theorem mycomments_tag (pd : ParserData) (cmt : XmlStr) : (mycomments pd cmt).tag = pd.tag := by
  simp only [mycomments]
  repeat' split
  all_goals rfl

theorem saxEvent_tagHeld {e : SaxEvent} (hheld : TagHeld pd)
    (h : saxEvent env xinclude pd e = .ok pd') : TagHeld pd' := by
  have hopened : ∀ {pd : ParserData} {name atts xmlnsPrefix},
      openTag env.toTagEnv pd name atts xmlnsPrefix = .ok pd' → TagHeld pd' := by
    intro pd name atts xmlnsPrefix hopen
    obtain ⟨baked, htag⟩ := openTag_tag hopen
    rw [TagHeld, htag]
    exact tagHeld_tagPtr baked
  have hclosed : ∀ {name xmlnsPrefix}, closeTag env.toTagEnv pd name xmlnsPrefix = .ok pd' →
      TagHeld pd' := by
    intro name xmlnsPrefix hclose
    obtain ⟨baked, htag⟩ := closeTag_tag hclose
    exact tagHeld_of_live htag
  cases e with
  | startDocument => cases h; exact hheld
  | endDocument =>
      rw [TagHeld, flushBuffer_tag h]
      exact hheld
  | startElement name atts => exact hopened h
  | endElement name => exact hclosed h
  | startElementNs localname xmlnsPrefix uri attributes =>
      obtain ⟨pd₁, -, h⟩ := bind_ok_iff.mp h
      exact hopened h
  | endElementNs localname xmlnsPrefix => exact hclosed h
  | characters ch =>
      cases h
      rw [TagHeld, bufferCharacters_tag]
      exact hheld
  | comment cmt =>
      cases h
      rw [TagHeld, mycomments_tag]
      exact hheld

/-- The including parser keeps its tag. -/
theorem xincludeDeep_tag {fuel : Nat} (h : xincludeDeep env fuel pd uri isText = .ok pd') :
    pd'.tag = pd.tag := by
  cases fuel with
  | zero => cases h
  | succ fuel =>
      rw [xincludeDeep_succ] at h
      rcases processXinclude_ok h with
        ⟨parent, hflush, rfl⟩ | ⟨parent, child, merged, hin, hmerge, rfl⟩
      · have htag := flushHead_tag hflush
        exact htag
      · obtain ⟨hflush, -⟩ := hin.parse
        obtain ⟨-, tokens, -, rfl⟩ := xincludeHandler_ok hmerge
        have htag := flushHead_tag hflush
        exact htag

theorem tagHeld_invariant (env : SaxEnv) : ParserInvariant env TagHeld where
  step _ _ _ _ hheld h := saxEvent_tagHeld hheld h
  size _ _ _ h := h
  text pd buffer pd' hheld h := by
    unfold txtParser at h
    split at h
    · cases h
      exact hheld
    · obtain ⟨pd₁, hflush, h⟩ := bind_ok_iff.mp h
      rw [TagHeld, flushBuffer_tag h, bufferCharacters_tag]
      show pd₁.tag ≠ .freed
      rw [flushBuffer_tag hflush, bufferCharacters_tag]
      exact hheld
  child _ _ := by
    intro h
    cases h

theorem eventOnce_iff {fuel : Nat} {e : SaxEvent} (hheld : TagHeld pd) :
    EventOnce env (xincludeDeep env fuel) pd e ↔
      EventOneMeta env (xincludeDeep env fuel) pd e := by
  cases e with
  | startElement name atts => exact openOnce_iff hheld
  | startElementNs localname xmlnsPrefix uri attributes =>
      refine forall_congr' fun pd₁ => imp_congr_right fun hinclude => openOnce_iff ?_
      refine startXinclude_kept ?_ hheld hinclude
      intro pd uri isText pd' hheld hok
      rw [TagHeld, xincludeDeep_tag hok]
      exact hheld
  | endElement name => exact iff_of_true (plainOnce_iff.mpr hheld) trivial
  | endElementNs localname xmlnsPrefix => exact iff_of_true (plainOnce_iff.mpr hheld) trivial
  | startDocument | endDocument | characters ch | comment cmt => exact Iff.rfl

end Events

/-- In a parse, and in the parses of the documents it includes, no tag is released a second time
exactly when at most one attribute of each XML element is a MetaName. -/
theorem releasedOnce_iff {env : SaxEnv} {fuel : Nat} {pd : ParserData} {events : List SaxEvent}
    (h : pd.tag = .null) : ReleasedOnce env fuel pd events ↔ OneMetaEach env fuel pd events := by
  have hheld : TagHeld pd := by simp [TagHeld, h]
  have H := tagHeld_invariant env
  have hsteps : Steps (saxStep env fuel)
      (DeepMeets env (fun fuel => EventOnce env (xincludeDeep env fuel)) (fun _ => True)
        (fun _ child => TagHeld child) fuel) pd events ↔ OneMetaEach env fuel pd events := by
    refine steps_congr (H.step fuel) ?_ hheld
    intro pd₁ e hheld₁
    refine H.deepMeets_congr (fun fuel pd e hheld => eventOnce_iff hheld) ?_ hheld₁
    exact fun parent child hchild => iff_of_true hchild trivial
  rw [ReleasedOnce, hsteps]
  exact and_iff_left fun pd' hrun => invariant (H.step fuel) hheld hrun

/-- The default config with `UndefinedXMLAttributes` set to `auto`. -/
def autoAttrsConfig : Config :=
  { configSetDefault (lit "C") with flags :=
      { (configSetDefault (lit "C")).flags with undefAttrs := .auto } }

/-- A document at its start, with this config. -/
def autoAttrsDocument : ParserData := initParserData autoAttrsConfig .idle docinfoInit

/-- Opening an element with these attributes. -/
def opensWith (attributes : List (XmlStr × XmlStr)) : SaxEvent :=
  .startElementNs (lit "a") none none attributes

/-- One attribute that becomes a MetaName. -/
theorem releasedOnce_iff_oneAttribute :
    ReleasedOnce .alone 0 autoAttrsDocument [opensWith [(lit "x", lit "1")]] ↔
      OneMetaEach .alone 0 autoAttrsDocument [opensWith [(lit "x", lit "1")]] :=
  releasedOnce_iff rfl

/-- With two of them the string is released twice. -/
theorem releasedOnce_not_twoAttributes :
    (¬ ∀ env fuel pd events, pd.tag = .null → ReleasedOnce env fuel pd events) ∧
      run (saxStep .alone 0) autoAttrsDocument
        [opensWith [(lit "x", lit "1"), (lit "y", lit "2")]] = .error (.fault .useAfterFree) := by
  have hrun : run (saxStep .alone 0) autoAttrsDocument
      [opensWith [(lit "x", lit "1"), (lit "y", lit "2")]] = .error (.fault .useAfterFree) := rfl
  refine ⟨fun h => ?_, hrun⟩
  obtain ⟨hsteps, -⟩ := h .alone 0 autoAttrsDocument
    [opensWith [(lit "x", lit "1"), (lit "y", lit "2")]] rfl
  have hopen := hsteps.head autoAttrsDocument rfl
  obtain ⟨hsteps, -⟩ := (hopen.bakes (lit "a") rfl).2 rfl
  have hcost : cost (bakeAttribute SaxEnv.alone.toTagEnv none) (metanameAtt SaxEnv.alone.toTagEnv)
      ({ autoAttrsDocument with tag := .null, bumpWord := true }, lit "a")
      [(lit "x", some (lit "1")), (lit "y", some (lit "2"))] = 2 := rfl
  have hle := Nat.le_trans (Nat.le_add_left _ _) (attributesOnce_iff.mp hsteps)
  have htwo : 2 ≤ 1 := hcost ▸ hle
  exact absurd htwo (by decide)

end LibSwish3
