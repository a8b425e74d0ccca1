import LibSwish3.Content

/-!
# Tags that hide text

With `undef_metas` set to `ignore`, an undefined name hides the text behind it.  Nothing shows
it again.  The `<meta>` element of an HTML document puts the counter back if it has no content,
but not if it has; in an XML document the end of an undefined element counts like its start, and
so the text that follows stays hidden.

## Main definitions

* `HidesRest` — a `<meta>` element that leaves the text behind it hidden.
* `TagsDefined` — every tag of an event has a name that the config knows.
* `Shows` — the next text is buffered.
-/

namespace LibSwish3

open Runs Tables

/-! ## HTML meta elements -/

/-- A `<meta>` element with content whose name is undefined, where undefined names are ignored. -/
def HidesRest (pd : ParserData) (atts : Option Atts) : Prop :=
  pd.config.flags.undefMetas = .ignore ∧
    ∃ metaname metacontent, metaAtts (lit "meta") atts = (some metaname, some metacontent) ∧
      ¬ Defined pd metaname

/-- The parser at the start of an XML document, with the default config and undefined names
ignored. -/
def freshIgnore : ParserData :=
  let c := configSetDefault (lit "C")
  initParserData { c with flags := { c.flags with undefMetas := .ignore } } .idle docinfoInit

section Html

variable {env : TagEnv} {pd pd' : ParserData} {name content : XmlStr} {tag : Option XmlStr}
  {xmlnsPrefix : Option XmlStr}

theorem pushTags_ignoreContent (h : pushTags pd name tag = .ok pd') :
    pd'.ignoreContent = pd.ignoreContent :=
  (pushTags_ok h).2.2.2.ignoreContent

theorem popTags_ignoreContent (h : popTags pd name = .ok pd') :
    pd'.ignoreContent = pd.ignoreContent := by
  obtain ⟨_, _, _, -, -, -, -, hcalm⟩ := popTags_ok h
  exact hcalm.ignoreContent

/-- An HTML tag hides nothing. -/
private theorem BakesPlain.calm_html {pd₁ : ParserData} {baked : XmlStr} (hhtml : pd.isHtml = true)
    (h : BakesPlain env pd name xmlnsPrefix pd₁ baked) : Calm pd pd₁ := by
  obtain ⟨swishtag, pd₂, -, hplain, -, rfl⟩ := h
  rw [plainTag] at hplain
  rw [if_pos hhtml] at hplain
  cases hplain
  exact ((calm_tag .null).trans (htmlBump_calm env _ swishtag)).trans (calm_tag _)

theorem nestedTag_ignoreContent (hhtml : pd.isHtml = true)
    (h : nestedTag env pd name content xmlnsPrefix = .ok pd') :
    pd'.ignoreContent = pd.ignoreContent := by
  obtain ⟨pd₁, pd₂, hopen, hclose, rfl⟩ := nestedTag_ok h
  have hkind := (openTagPlain_grows hopen).2
  have hstart : { pd with bumpWord := true }.isHtml = true := hhtml
  obtain ⟨pd₃, baked, hbake, hpush⟩ := openTagPlain_ok hopen
  obtain ⟨pd₄, baked', hbake', hpop⟩ := closeTag_ok hclose
  have hbuf := bufferCharacters_calm pd₁ content
  calc pd₂.ignoreContent = pd₄.ignoreContent := popTags_ignoreContent hpop
    _ = (bufferCharacters pd₁ content).ignoreContent :=
      (hbake'.calm_html (hbuf.isHtml.trans (hkind.trans hhtml))).ignoreContent
    _ = pd₁.ignoreContent := hbuf.ignoreContent
    _ = pd₃.ignoreContent := pushTags_ignoreContent hpush
    _ = pd.ignoreContent := (hbake.calm_html hstart).ignoreContent

/-- An undefined name of a `<meta>` element hides text where undefined names are ignored. -/
theorem undefHtmlMeta_ignoreContent {metaname : XmlStr}
    (h : undefHtmlMeta pd metaname = .ok pd') :
    pd'.ignoreContent = pd.ignoreContent ↔
      ¬ (pd.config.flags.undefMetas = .ignore ∧ ¬ Defined pd metaname) := by
  cases undefHtmlMeta_switch h with
  | defined hdefined => simp [Defined, hdefined]
  | ignore hnot hmode => simp [Defined, hnot, hmode]
  | auto hmode hmeta => simp [hmode, (autoMetaname_calm hmeta).ignoreContent]
  | autoall hmode hmeta hprop =>
      simp [hmode, (autoProperty_calm hprop).ignoreContent, (autoMetaname_calm hmeta).ignoreContent]
  | index hmode => simp [hmode]

/-- A `<meta>` element puts the counter back exactly if it does not hide the rest. -/
theorem openTag_meta_ignoreContent_iff {atts : Option Atts} (hhtml : pd.isHtml = true)
    (hmeta : normalizeTag env pd name xmlnsPrefix = .ok (lit "meta"))
    (h : openTag env pd name atts xmlnsPrefix = .ok pd') :
    pd'.ignoreContent = pd.ignoreContent ↔ ¬ HidesRest pd atts := by
  obtain ⟨baked, pd₁, hbake, hpush⟩ := openTag_ok h
  have hpushed := pushTags_ignoreContent hpush
  rw [hpushed, HidesRest]
  obtain ⟨swishtag, hnorm, hbake⟩ := bind_ok_iff.mp hbake
  obtain rfl : swishtag = lit "meta" := Except.ok.inj (hnorm.symm.trans hmeta)
  obtain ⟨b, hbump⟩ := htmlBump_eq env { pd with tag := .null } (lit "meta")
  rw [if_pos hhtml, hbump] at hbake
  split at hbake
  · rename_i metaname metacontent hfound
    obtain ⟨⟨hasTag, pd₂⟩, hmeta, hbake⟩ := bind_ok_iff.mp hbake
    cases hbake
    obtain ⟨pd₃, hundef, hmeta⟩ := bind_ok_iff.mp hmeta
    cases metacontent with
    | some metacontent =>
        obtain ⟨pd₄, hnested, hmeta⟩ := bind_ok_iff.mp hmeta
        cases hmeta
        obtain ⟨n, hcalm⟩ := undefHtmlMeta_calm hundef
        have hkept : pd₄.ignoreContent = pd₃.ignoreContent :=
          nestedTag_ignoreContent (hcalm.isHtml.trans hhtml) hnested
        have hiff := undefHtmlMeta_ignoreContent hundef
        simpa [hkept, hfound, Defined] using hiff
    | none =>
        cases hmeta
        simp [hfound]
  · rename_i hfound
    cases hbake
    simp [hfound]

end Html

/-- A `<meta>` element in the default config. -/
private def metaElement (name : String) : Option Atts :=
  some [(lit "name", some (lit name)), (lit "content", some (lit "x"))]

/-- A `<meta>` element whose name is defined hides nothing. -/
theorem openTag_meta_swishtitle :
    ∃ pd', openTag SaxEnv.alone.toTagEnv { freshIgnore with isHtml := true } (lit "META")
        (metaElement "swishtitle") none = .ok pd' ∧
      pd'.ignoreContent = freshIgnore.ignoreContent := by
  obtain ⟨pd', hok, -⟩ : ∃ pd', openTag SaxEnv.alone.toTagEnv { freshIgnore with isHtml := true }
      (lit "META") (metaElement "swishtitle") none = .ok pd' ∧ pd'.metaBuf = [] :=
    exists_ok_of_map rfl
  refine ⟨pd', hok, (openTag_meta_ignoreContent_iff rfl rfl hok).mpr ?_⟩
  rintro ⟨-, metaname, metacontent, hfound, hundefined⟩
  cases hfound
  exact hundefined (.inl (by decide))

/-- `<meta name="robots" content="x">` hides the rest of an HTML document. -/
theorem openTag_meta_hides :
    ∃ pd', openTag SaxEnv.alone.toTagEnv { freshIgnore with isHtml := true } (lit "meta")
        (metaElement "robots") none = .ok pd' ∧
      freshIgnore.ignoreContent = 0 ∧ pd'.ignoreContent = 1 := by
  obtain ⟨pd', hok, hcount⟩ :=
    exists_ok_of_map (x := openTag SaxEnv.alone.toTagEnv { freshIgnore with isHtml := true }
      (lit "meta") (metaElement "robots") none) (f := fun pd => pd.ignoreContent) (b := 1) rfl
  exact ⟨pd', hok, rfl, hcount⟩

/-! ## Undefined XML tags -/

/-- The next text is buffered. -/
def Shows (pd : ParserData) : Prop :=
  ∀ ch, (bufferCharacters pd ch).metaBuf = bufferText pd.bumpWord pd.metaBuf ch

/-- Every tag of an event has a name that the config knows: the element's own and those of the
tags nested in it. -/
def TagsDefined (env : SaxEnv) (fuel : Nat) (pd : ParserData) (e : SaxEvent) : Prop :=
  EventMeets env (xincludeDeep env fuel) Defined (fun _ _ _ => True) pd e

/-- An XML document, where undefined names are ignored. -/
structure IgnoresXml (pd : ParserData) : Prop where
  isHtml : pd.isHtml = false
  undefMetas : pd.config.flags.undefMetas = .ignore

theorem shows_iff {pd : ParserData} : Shows pd ↔ pd.ignoreContent = 0 := by
  refine ⟨fun h => ?_, fun h ch => by simp [bufferCharacters, h]⟩
  by_contra hignore
  have htext := congrArg List.length (h [0])
  rw [bufferCharacters, if_pos hignore, bufferText] at htext
  split at htext <;> simp at htext

/-- A step behind which text is shown exactly if it was and the names are `defined`. -/
private structure CountsUnless (defined : Prop) (pd pd' : ParserData) : Prop where
  ignores : IgnoresXml pd'
  zero_iff : pd'.ignoreContent = 0 ↔ pd.ignoreContent = 0 ∧ defined

section Xml

variable {env : TagEnv} {pd pd' : ParserData} {name content : XmlStr}
  {xmlnsPrefix : Option XmlStr} {defined : Prop}

theorem IgnoresXml.calm (h : IgnoresXml pd) (hcalm : Calm pd pd') : IgnoresXml pd' :=
  ⟨hcalm.isHtml.trans h.isHtml, hcalm.config.undefMetas.trans h.undefMetas⟩

/-- What happens to the stacks does not count. -/
private theorem CountsUnless.then_push {pd₁ : ParserData} {tag : Option XmlStr}
    (h : CountsUnless defined pd pd₁) (hpush : pushTags pd₁ name tag = .ok pd') :
    CountsUnless defined pd pd' := by
  obtain ⟨-, -, -, hcalm⟩ := pushTags_ok hpush
  have hmode := hcalm.config.undefMetas
  exact ⟨⟨hcalm.isHtml.trans h.ignores.isHtml, hmode.trans h.ignores.undefMetas⟩,
    by rw [pushTags_ignoreContent hpush, h.zero_iff]⟩

private theorem CountsUnless.then_pop {pd₁ : ParserData} (h : CountsUnless defined pd pd₁)
    (hpop : popTags pd₁ name = .ok pd') : CountsUnless defined pd pd' := by
  obtain ⟨_, _, _, -, -, -, -, hcalm⟩ := popTags_ok hpop
  have hmode := hcalm.config.undefMetas
  exact ⟨⟨hcalm.isHtml.trans h.ignores.isHtml, hmode.trans h.ignores.undefMetas⟩,
    by rw [popTags_ignoreContent hpop, h.zero_iff]⟩

/-- The condition on a tag without attributes. -/
private abbrev PlainDefined (env : TagEnv) (pd : ParserData) (name : XmlStr)
    (xmlnsPrefix : Option XmlStr) : Prop :=
  PlainMeets env Defined (fun _ _ _ => True) { pd with bumpWord := true } name xmlnsPrefix

/-- Where undefined names are ignored, text behind a tag is shown if it was, and the name is
defined. -/
private theorem undefXmlTag_counts (hignore : IgnoresXml pd) (h : undefXmlTag pd name = .ok pd') :
    CountsUnless (Defined pd name) pd pd' := by
  cases undefXmlTag_switch h with
  | defined hdefined => exact ⟨hignore, by simp [Defined, hdefined]⟩
  | ignore hnot _ => exact ⟨⟨hignore.isHtml, hignore.undefMetas⟩, by simp [Defined, hnot]⟩
  | auto _ hmode _ | autoall _ hmode _ _ | index _ hmode =>
      cases hignore.undefMetas.symm.trans hmode

private theorem endMeets_iff {swishtag : XmlStr} (hxml : pd.isHtml = false)
    (hnorm : normalizeTag env pd name xmlnsPrefix = .ok swishtag) :
    EndMeets env Defined pd name xmlnsPrefix ↔ Defined pd swishtag := by
  refine ⟨fun h => h hxml swishtag hnorm, fun h _ swishtag' hnorm' => ?_⟩
  cases hnorm.symm.trans hnorm'
  exact h

private theorem BakesPlain.counts {pd₁ : ParserData} {baked : XmlStr} (hignore : IgnoresXml pd)
    (h : BakesPlain env pd name xmlnsPrefix pd₁ baked) :
    CountsUnless (EndMeets env Defined pd name xmlnsPrefix) pd pd₁ := by
  obtain ⟨swishtag, pd₂, hnorm, hplain, -, rfl⟩ := h
  rw [plainTag, if_neg (by simp [hignore.isHtml])] at hplain
  have hstart : IgnoresXml { pd with tag := .null, bumpWord := true } :=
    ⟨hignore.isHtml, hignore.undefMetas⟩
  have hcounts := undefXmlTag_counts hstart hplain
  rw [endMeets_iff hignore.isHtml hnorm]
  exact ⟨⟨hcounts.ignores.isHtml, hcounts.ignores.undefMetas⟩, hcounts.zero_iff⟩

private theorem openTagPlain_counts (hignore : IgnoresXml pd)
    (h : openTagPlain env pd name xmlnsPrefix = .ok pd') :
    CountsUnless (EndMeets env Defined pd name xmlnsPrefix) pd pd' := by
  obtain ⟨pd₁, baked, hbake, hpush⟩ := openTagPlain_ok h
  exact (hbake.counts hignore).then_push hpush

private theorem closeTag_counts (hignore : IgnoresXml pd)
    (h : closeTag env pd name xmlnsPrefix = .ok pd') :
    CountsUnless (EndMeets env Defined pd name xmlnsPrefix) pd pd' := by
  obtain ⟨pd₁, baked, hbake, hpop⟩ := closeTag_ok h
  exact (hbake.counts hignore).then_pop hpop

/-- A nested tag counts twice, but under one name. -/
private theorem nestedTag_counts (hignore : IgnoresXml pd)
    (h : nestedTag env pd name content xmlnsPrefix = .ok pd') :
    CountsUnless (PlainDefined env pd name xmlnsPrefix) pd pd' := by
  obtain ⟨pd₁, pd₂, hopen, hclose, rfl⟩ := nestedTag_ok h
  obtain ⟨hgrows, hkind⟩ := openTagPlain_grows hopen
  have hstart : IgnoresXml { pd with bumpWord := true } := ⟨hignore.isHtml, hignore.undefMetas⟩
  obtain ⟨hignore₁, hzero₁⟩ := openTagPlain_counts hstart hopen
  have hbuf := bufferCharacters_calm pd₁ content
  obtain ⟨hignore₂, hzero₂⟩ := closeTag_counts (hignore₁.calm hbuf) hclose
  have hsame : EndMeets env Defined { pd with bumpWord := true } name xmlnsPrefix →
      EndMeets env Defined (bufferCharacters pd₁ content) name xmlnsPrefix := by
    intro hends _ swishtag hnorm
    refine (hends hignore.isHtml swishtag ?_).grows (hgrows.trans hbuf.config)
    rw [normalizeTag] at hnorm ⊢
    rwa [(hgrows.trans hbuf.config).ignoreXmlns] at hnorm
  have hplain : PlainDefined env pd name xmlnsPrefix ↔
      EndMeets env Defined { pd with bumpWord := true } name xmlnsPrefix :=
    ⟨fun h => h.1, fun h => ⟨h, fun _ _ _ => trivial⟩⟩
  refine ⟨⟨hignore₂.isHtml, hignore₂.undefMetas⟩, ?_⟩
  simp only [hbuf.ignoreContent, hzero₁] at hzero₂
  rw [hzero₂, hplain]
  exact ⟨fun h => h.1, fun h => ⟨h, hsame h.2⟩⟩

private theorem bakeAttribute_counts {s s' : ParserData × XmlStr} {att : XmlStr × Option XmlStr}
    (hignore : IgnoresXml s.1) (h : bakeAttribute env xmlnsPrefix s att = .ok s') :
    CountsUnless (AttributeMeets env (PlainDefined env) xmlnsPrefix s att) s.1 s'.1 := by
  obtain ⟨⟨swishtag, metaname, value⟩, hnames, h⟩ := bind_ok_iff.mp h
  obtain ⟨pd₁, hundef, h⟩ := bind_ok_iff.mp h
  obtain ⟨pd₂, htag, h⟩ := bind_ok_iff.mp h
  cases h
  have hcalm := undefXmlAttr_calm hundef
  have hmeets : AttributeMeets env (PlainDefined env) xmlnsPrefix s att ↔
      (metaname ∈ pd₁.config.metanames → PlainDefined env pd₁ metaname xmlnsPrefix) := by
    refine ⟨fun h => h _ _ _ _ hnames hundef, fun h swishtag' name' value' pd' hnames' => ?_⟩
    cases hnames.symm.trans hnames'
    intro hundef'
    cases hundef.symm.trans hundef'
    exact h
  rw [hmeets]
  unfold attributeTag at htag
  split at htag
  · rename_i hmem
    obtain ⟨hignore₂, hzero⟩ := nestedTag_counts (hignore.calm hcalm) htag
    exact ⟨hignore₂, by rw [hzero, hcalm.ignoreContent]; simp [hmem]⟩
  · rename_i hmem
    cases htag
    exact ⟨hignore.calm hcalm, by rw [hcalm.ignoreContent]; simp [hmem]⟩

private theorem bakeTag_counts {atts : Option Atts} {baked : Option XmlStr}
    (hignore : IgnoresXml pd) (h : bakeTag env pd name atts xmlnsPrefix = .ok (baked, pd')) :
    CountsUnless (BakeMeets env (PlainDefined env) Defined pd name atts xmlnsPrefix) pd pd' := by
  obtain ⟨swishtag, hnorm, h⟩ := bind_ok_iff.mp h
  rw [if_neg (by simp [hignore.isHtml])] at h
  obtain ⟨⟨pd₁, swishtag₁⟩, hrun, h⟩ := bind_ok_iff.mp h
  obtain ⟨pd₂, hundef, h⟩ := bind_ok_iff.mp h
  cases h
  have hstart : IgnoresXml { pd with bumpWord := true } := ⟨hignore.isHtml, hignore.undefMetas⟩
  have hignore₁ : IgnoresXml pd₁ :=
    invariant (I := fun s : ParserData × XmlStr => IgnoresXml s.1)
      (fun s att s' hs hstep => (bakeAttribute_counts hs hstep).ignores) hstart hrun
  have hatts := holds_iff_steps (I := fun s : ParserData × XmlStr => IgnoresXml s.1)
    (Z := fun s => s.1.ignoreContent = 0)
    (fun s att s' hs _ hstep => (bakeAttribute_counts hs hstep).ignores)
    (fun s att s' hs _ hstep => (bakeAttribute_counts hs hstep).zero_iff) hstart hrun
  obtain ⟨hignore₂, hzero⟩ := undefXmlTag_counts hignore₁ hundef
  have hmeets : BakeMeets env (PlainDefined env) Defined pd name atts xmlnsPrefix ↔
      Steps (bakeAttribute env xmlnsPrefix) (AttributeMeets env (PlainDefined env) xmlnsPrefix)
        ({ pd with bumpWord := true }, swishtag) (atts.getD []) ∧ Defined pd₁ swishtag₁ := by
    refine ⟨fun h => ?_, fun ⟨hsteps, hdefined⟩ swishtag' hnorm' => ?_⟩
    · obtain ⟨hsteps, hdefined⟩ := (h swishtag hnorm).2 hignore.isHtml
      exact ⟨hsteps, hdefined _ hrun⟩
    · cases hnorm.symm.trans hnorm'
      refine ⟨fun hhtml => absurd (hignore.isHtml.symm.trans hhtml) (by decide), fun _ =>
        ⟨hsteps, fun s hs => ?_⟩⟩
      cases hrun.symm.trans hs
      exact hdefined
  exact ⟨hignore₂, by rw [hzero, hatts, hmeets, and_assoc]⟩

/-- Behind the start of an XML element text is shown exactly if it was, and all tags in it are
defined. -/
private theorem openTag_counts {atts : Option Atts} (hignore : IgnoresXml pd)
    (h : openTag env pd name atts xmlnsPrefix = .ok pd') :
    CountsUnless (StartMeets env Defined (fun _ _ _ => True) pd name atts xmlnsPrefix) pd pd' := by
  obtain ⟨baked, pd₁, hbake, hpush⟩ := openTag_ok h
  have hstart : IgnoresXml { pd with tag := .null } := ⟨hignore.isHtml, hignore.undefMetas⟩
  obtain ⟨hignore₁, hzero⟩ := bakeTag_counts hstart hbake
  have hmeets : StartMeets env Defined (fun _ _ _ => True) pd name atts xmlnsPrefix ↔
      BakeMeets env (PlainDefined env) Defined { pd with tag := .null } name atts xmlnsPrefix :=
    ⟨fun h => h.bake, fun h => ⟨h, fun _ _ _ => trivial⟩⟩
  have hbaked : CountsUnless
      (BakeMeets env (PlainDefined env) Defined { pd with tag := .null } name atts xmlnsPrefix) pd
      { pd₁ with tag := tagPtr baked } :=
    ⟨⟨hignore₁.isHtml, hignore₁.undefMetas⟩, hzero⟩
  rw [hmeets]
  exact hbaked.then_push hpush

end Xml

section Run

variable {env : SaxEnv} {fuel : Nat} {pd pd' pd₀ : ParserData} {e : SaxEvent}
  {events : List SaxEvent}

/-- An event with the comment that hides text, or the one that shows it again. -/
def hasCommand (command : XmlStr) : SaxEvent → Bool
  | .comment cmt => strCaseEq (commentCommand cmt).1 command
  | _ => false

theorem saxStep_ignoresXml (hignore : IgnoresXml pd) (h : saxStep env fuel pd e = .ok pd') :
    IgnoresXml pd' :=
  have hgrows := saxEvent_grows (fun _ _ _ _ hinclude => (xincludeDeep_calm hinclude).config) h
  ⟨(saxStep_isHtml h).trans hignore.isHtml, hgrows.undefMetas.trans hignore.undefMetas⟩

theorem startXinclude_calm {localname : XmlStr} {uri : Option XmlStr} {atts : Option Atts}
    (h : startXinclude env (xincludeDeep env fuel) pd localname uri atts = .ok pd') :
    Calm pd pd' :=
  startXinclude_kept (P := fun pd₁ => Calm pd pd₁)
    (fun _ _ _ _ hcalm hinclude => hcalm.trans (xincludeDeep_calm hinclude)) (.refl pd) h

private theorem startElementNs_zero_iff {localname : XmlStr} {xmlnsPrefix uri : Option XmlStr}
    {attributes : List (XmlStr × XmlStr)} (hignore : IgnoresXml pd)
    (h : saxStep env fuel pd (.startElementNs localname xmlnsPrefix uri attributes) = .ok pd') :
    pd'.ignoreContent = 0 ↔ pd.ignoreContent = 0 ∧
      TagsDefined env fuel pd (.startElementNs localname xmlnsPrefix uri attributes) := by
  obtain ⟨pd₁, hinclude, h⟩ := bind_ok_iff.mp h
  have hcalm := startXinclude_calm hinclude
  have hmeets : TagsDefined env fuel pd (.startElementNs localname xmlnsPrefix uri attributes) ↔
      StartMeets env.toTagEnv Defined (fun _ _ _ => True) pd₁ localname (sax2Atts attributes)
        xmlnsPrefix := by
    refine ⟨fun h => h pd₁ hinclude, fun h pd₂ hinclude' => ?_⟩
    cases hinclude.symm.trans hinclude'
    exact h
  rw [hmeets, ← hcalm.ignoreContent]
  exact (openTag_counts (hignore.calm hcalm) h).zero_iff

/-- One event, if it is not one of the two comments. -/
private theorem saxStep_zero_iff (hignore : IgnoresXml pd)
    (hnoindex : hasCommand (lit "noindex") e = false) (hindex : hasCommand (lit "index") e = false)
    (h : saxStep env fuel pd e = .ok pd') :
    pd'.ignoreContent = 0 ↔ pd.ignoreContent = 0 ∧ TagsDefined env fuel pd e := by
  cases e with
  | startDocument => cases h; simp [TagsDefined, EventMeets]
  | endDocument =>
      have hcalm := flushBuffer_calm h
      simp [TagsDefined, EventMeets, hcalm.ignoreContent]
  | startElement name atts => exact (openTag_counts hignore h).zero_iff
  | endElement name => exact (closeTag_counts hignore h).zero_iff
  | startElementNs localname xmlnsPrefix uri attributes => exact startElementNs_zero_iff hignore h
  | endElementNs localname xmlnsPrefix => exact (closeTag_counts hignore h).zero_iff
  | characters ch =>
      cases h
      simp [TagsDefined, EventMeets, (bufferCharacters_calm pd ch).ignoreContent]
  | comment cmt =>
      cases h
      simp only [hasCommand] at hnoindex hindex
      simp only [mycomments, hnoindex, hindex, Bool.false_eq_true, if_false, TagsDefined,
        EventMeets, and_true]
      split <;> rfl

/-- One event that does not hide text. -/
private theorem saxStep_zero (hignore : IgnoresXml pd)
    (hnoindex : hasCommand (lit "noindex") e = false) (hzero : pd.ignoreContent = 0)
    (hmeets : TagsDefined env fuel pd e) (h : saxStep env fuel pd e = .ok pd') :
    pd'.ignoreContent = 0 := by
  by_cases hindex : hasCommand (lit "index") e = true
  · cases e with
    | comment cmt =>
        cases h
        simp only [hasCommand] at hnoindex hindex
        simp [mycomments, hnoindex, hindex, hzero]
    | _ => exact absurd hindex (by simp [hasCommand])
  · exact (saxStep_zero_iff hignore hnoindex (by simpa using hindex) h).mpr ⟨hzero, hmeets⟩

/-- Where undefined names are ignored, text is shown at the end of a run if every tag of the run
was defined; and without an `index` comment only then. -/
theorem run_shows_iff (hignore : IgnoresXml pd₀) (hzero : pd₀.ignoreContent = 0)
    (hnoindex : ∀ e ∈ events, hasCommand (lit "noindex") e = false)
    (hrun : run (saxStep env fuel) pd₀ events = .ok pd) :
    (Steps (saxStep env fuel) (TagsDefined env fuel) pd₀ events → Shows pd) ∧
      ((∀ e ∈ events, hasCommand (lit "index") e = false) → Shows pd →
        Steps (saxStep env fuel) (TagsDefined env fuel) pd₀ events) := by
  rw [shows_iff]
  refine ⟨fun hsteps => ?_, fun hindex hshown => ?_⟩
  · have hboth := hsteps.and (steps_of_forall hnoindex)
    refine (invariant_of_steps (I := fun pd => IgnoresXml pd ∧ pd.ignoreContent = 0) ?_
      ⟨hignore, hzero⟩ hboth hrun).2
    rintro pd₁ e pd₂ ⟨hignore₁, hzero₁⟩ ⟨hmeets, hcomment⟩ hok
    exact ⟨saxStep_ignoresXml hignore₁ hok, saxStep_zero hignore₁ hcomment hzero₁ hmeets hok⟩
  · refine ((holds_iff_steps (I := IgnoresXml) (Z := fun pd => pd.ignoreContent = 0) ?_ ?_ hignore
      hrun).mp hshown).2
    · exact fun pd₁ e pd₂ hignore₁ _ hok => saxStep_ignoresXml hignore₁ hok
    · exact fun pd₁ e pd₂ hignore₁ he hok =>
        saxStep_zero_iff hignore₁ (hnoindex e he) (hindex e he) hok

end Run

/-- `<swishdefault>one<swishtitle>two</swishtitle>three` -/
def titleInDefault : List SaxEvent :=
  [.startElementNs Swish.defaultMetaname none none [], .characters (lit "one"),
    .startElementNs Swish.titleMetaname none none [], .characters (lit "two"),
    .endElementNs Swish.titleMetaname none, .characters (lit "three")]

/-- Behind the end of the inner element the text still counts. -/
theorem run_shows_swishdefault : ∃ pd,
    run (saxStep .alone 0) freshIgnore titleInDefault = .ok pd ∧
      pd.metaBuf = lit "three" ∧ Shows pd := by
  have hbuf : (run (saxStep .alone 0) freshIgnore titleInDefault).toOption.map (·.metaBuf) =
      some (lit "three") := by
    decide +kernel
  obtain ⟨pd, hrun, hbuf⟩ := exists_ok_of_map hbuf
  refine ⟨pd, hrun, hbuf, (run_shows_iff ⟨rfl, rfl⟩ rfl (by decide) hrun).1 ?_⟩
  refine steps_cons_of_ok ?_ rfl (steps_cons_of_ok trivial rfl (steps_cons_of_ok ?_ rfl
    (steps_cons_of_ok trivial rfl (steps_cons_of_ok ?close rfl
      (steps_cons_of_ok trivial rfl steps_nil)))))
  case close =>
    intro _ swishtag hnorm
    cases hnorm
    exact .inl (by decide)
  all_goals
    refine eventMeets_of_bare rfl fun swishtag hnorm => ⟨?_, fun _ _ => trivial⟩
    cases hnorm
    exact .inl (by decide)

/-- In `<swishdefault><x></x>text` the text is not buffered. -/
theorem run_hides_behind_x :
    Defined freshIgnore Swish.defaultMetaname ∧ ∃ pd, run (saxStep .alone 0) freshIgnore
        [.startElementNs Swish.defaultMetaname none none [],
          .startElementNs (lit "x") none none [], .endElementNs (lit "x") none,
          .characters (lit "text")] = .ok pd ∧
      pd.ignoreContent = 2 ∧ pd.metaBuf = [] := by
  obtain ⟨pd, hrun, hstate⟩ :=
    exists_ok_of_map (x := run (saxStep .alone 0) freshIgnore
      [.startElementNs Swish.defaultMetaname none none [],
        .startElementNs (lit "x") none none [], .endElementNs (lit "x") none,
        .characters (lit "text")]) (f := fun pd => (pd.ignoreContent, pd.metaBuf))
      (b := (2, [])) rfl
  exact ⟨.inl (by decide), pd, hrun, Prod.ext_iff.mp hstate⟩

end LibSwish3
