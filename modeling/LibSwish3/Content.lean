import LibSwish3.Sax

/-!
# Text that counts

Two properties of the text of a document.  It does not matter how libxml2 cuts a text into
events: `run_characters_append`.  And text between a `noindex` comment and its `index`
comment does not count, `run_hidden`, unless an XML tag in between has a name the config
does not know: such a tag makes the parser forget that it is hiding anything.

## Main definitions

* `hiddenDepth` — how many `noindex` comments are open.
* `KeepsHidden` — a step that does not show hidden text again.
-/

namespace LibSwish3

open Runs Tables

/-! ## Texts in pieces -/

section Pieces

variable (env : SaxEnv) (fuel : Nat) (pd : ParserData)

theorem bufferText_bufferText (bumpWord : Bool) (buf a b : XmlStr) :
    bufferText false (bufferText bumpWord buf a) b = bufferText bumpWord buf (a ++ b) := by
  simp [bufferText]

/-- The word bump is spent on the first piece, and it is spent even on an empty one. -/
theorem bufferCharacters_append (a b : XmlStr) :
    bufferCharacters (bufferCharacters pd a) b = bufferCharacters pd (a ++ b) := by
  by_cases hignore : pd.ignoreContent ≠ 0
  · simp [bufferCharacters, hignore]
  · simp [bufferCharacters, hignore, bufferText_bufferText]

theorem run_two_characters (a b : XmlStr) (post : List SaxEvent) :
    run (saxStep env fuel) pd (.characters a :: .characters b :: post) =
      run (saxStep env fuel) pd (.characters (a ++ b) :: post) := by
  have hone : ∀ (pd : ParserData) (ch : XmlStr),
      saxStep env fuel pd (.characters ch) = .ok (bufferCharacters pd ch) := fun _ _ => rfl
  rw [run_cons_of_ok (hone pd a), run_cons_of_ok (hone _ b), run_cons_of_ok (hone pd (a ++ b)),
    bufferCharacters_append]

/-- Cutting a text in two changes nothing, wherever it stands in a document: the runs end in
the same state, or stop in the same way. -/
theorem run_characters_append (pre post : List SaxEvent) (a b : XmlStr) :
    run (saxStep env fuel) pd (pre ++ .characters a :: .characters b :: post) =
      run (saxStep env fuel) pd (pre ++ .characters (a ++ b) :: post) := by
  cases hpre : run (saxStep env fuel) pd pre with
  | ok pd₁ =>
      rw [run_append_of_ok hpre, run_append_of_ok hpre, run_two_characters]
  | error x =>
      rw [run_append_of_error hpre, run_append_of_error hpre]

end Pieces

/-! ## Hidden text -/

/-- How many `noindex` comments are open. -/
def hiddenDepth (depth : Nat) : SaxEvent → Nat
  | .comment cmt =>
    if strCaseEq (commentCommand cmt).1 (lit "noindex") then depth + 1
    else if strCaseEq (commentCommand cmt).1 (lit "index") then depth - 1
    else depth
  | _ => depth

/-- The callbacks, counting the open `noindex` comments on the side. -/
def hidingStep (env : SaxEnv) (fuel : Nat) :
    ParserData × Nat → SaxEvent → Swish (ParserData × Nat) :=
  withGhost (saxStep env fuel) fun _ e _ depth => hiddenDepth depth e

/-- Counting the comments changes no run of the callbacks. -/
theorem exists_run_hidingStep_iff {env : SaxEnv} {fuel depth : Nat} {pd pd' : ParserData}
    {events : List SaxEvent} :
    (∃ depth', run (hidingStep env fuel) (pd, depth) events = .ok (pd', depth')) ↔
      run (saxStep env fuel) pd events = .ok pd' :=
  exists_run_withGhost_iff depth

/-- The config knows the name of a tag. -/
def Defined (pd : ParserData) (name : XmlStr) : Prop :=
  name ∈ pd.config.metanames ∨ name ∈ pd.config.tagAliases

/-- Inside hidden text, every XML tag of the event has a name the config knows. -/
def KeepsHidden (env : SaxEnv) (fuel : Nat) (s : ParserData × Nat) (e : SaxEvent) : Prop :=
  0 < s.2 → EventMeets env (xincludeDeep env fuel) Defined (fun _ _ _ => True) s.1 e

/-- The parser hides as much as the comments ask for. -/
structure Hiding (depth : Nat) (pd : ParserData) : Prop where
  ignoreContent : pd.ignoreContent = depth
  undefMetas : pd.config.flags.undefMetas = .index

section Hidden

variable {env : SaxEnv} {fuel depth : Nat} {pd pd' : ParserData}

theorem Hiding.calm (h : Hiding depth pd) (hcalm : Calm pd pd') : Hiding depth pd' :=
  ⟨hcalm.ignoreContent.trans h.ignoreContent, hcalm.config.undefMetas.trans h.undefMetas⟩

theorem Defined.grows {name : XmlStr} (h : Defined pd name)
    (hgrows : Grows pd.config pd'.config) : Defined pd' name := by
  rcases h with hmeta | halias
  · exact .inl (hgrows.metanames name hmeta)
  · exact .inr (hgrows.tagAliases ▸ halias)

/-- With `index`, an undefined HTML name changes nothing. -/
theorem undefHtmlMeta_index {metaname : XmlStr} (h : Hiding depth pd)
    (hok : undefHtmlMeta pd metaname = .ok pd') : pd' = pd := by
  cases undefHtmlMeta_switch hok with
  | defined | index => rfl
  | ignore _ hmode | auto hmode _ | autoall hmode _ _ => cases h.undefMetas.symm.trans hmode

/-- With `index`, an XML tag the config knows changes nothing, and any other shows all text
again, which is harmless where none is hidden. -/
theorem undefXmlTag_index {swishtag : XmlStr} (h : Hiding depth pd)
    (hname : depth = 0 ∨ Defined pd swishtag) (hok : undefXmlTag pd swishtag = .ok pd') :
    Hiding depth pd' := by
  cases undefXmlTag_switch hok with
  | defined => exact h
  | index hnot _ =>
      rcases hname with hzero | hdefined
      · exact ⟨hzero.symm, h.undefMetas⟩
      · exact absurd hdefined hnot
  | ignore _ hmode | auto _ hmode _ | autoall _ hmode _ _ => cases h.undefMetas.symm.trans hmode

theorem hiding_tagKept {D : ParserData → XmlStr → Prop}
    (hD : ∀ pd name, D pd name → depth = 0 ∨ Defined pd name)
    (hmono : ∀ pd pd' name, D pd name → Grows pd.config pd'.config → D pd' name) :
    TagKept D (fun _ _ _ => True) (Hiding depth) where
  calm _ _ h hcalm := h.calm hcalm
  undefXmlTag pd swishtag _ h _ hname hok := undefXmlTag_index h (hD pd swishtag hname) hok
  undefHtmlMeta pd _ _ h hok := by
    rw [undefHtmlMeta_index h hok]
    exact ⟨h, h⟩
  push _ _ _ _ h _ hok := by
    obtain ⟨-, -, -, hcalm⟩ := pushTags_ok hok
    exact ⟨hcalm.ignoreContent.trans h.ignoreContent,
      hcalm.config.undefMetas.trans h.undefMetas⟩
  pop _ _ _ h hok := by
    obtain ⟨_, _, _, -, -, -, -, hcalm⟩ := popTags_ok hok
    exact ⟨hcalm.ignoreContent.trans h.ignoreContent,
      hcalm.config.undefMetas.trans h.undefMetas⟩
  mono pd pd' name h hgrows _ := hmono pd pd' name h hgrows

theorem mycomments_hiding (h : Hiding depth pd) (cmt : XmlStr) :
    Hiding (hiddenDepth depth (.comment cmt)) (mycomments pd cmt) := by
  simp only [mycomments, hiddenDepth]
  split
  · exact ⟨congrArg (· + 1) h.ignoreContent, h.undefMetas⟩
  · split
    · exact ⟨congrArg (· - 1) h.ignoreContent, h.undefMetas⟩
    · split
      · exact h
      · exact ⟨h.ignoreContent, h.undefMetas⟩

/-- One event: the parser goes on hiding as much as the comments ask for. -/
theorem saxStep_hiding {e : SaxEvent} (h : Hiding depth pd)
    (hkeeps : KeepsHidden env fuel (pd, depth) e) (hok : saxStep env fuel pd e = .ok pd') :
    Hiding (hiddenDepth depth e) pd' := by
  by_cases hcomment : ∃ cmt, e = .comment cmt
  · obtain ⟨cmt, rfl⟩ := hcomment
    cases hok
    exact mycomments_hiding h cmt
  · have hdepth : hiddenDepth depth e = depth := by
      cases e with
      | comment cmt => exact absurd ⟨cmt, rfl⟩ hcomment
      | _ => rfl
    have hx : ∀ pd uri isText pd', Hiding depth pd →
        xincludeDeep env fuel pd uri isText = .ok pd' → Hiding depth pd' :=
      fun _ _ _ _ h hinclude => h.calm (xincludeDeep_calm hinclude)
    rw [hdepth]
    rcases Nat.eq_zero_or_pos depth with hzero | hpos
    · exact saxEvent_kept (hiding_tagKept (fun _ _ _ => .inl hzero) fun _ _ _ h _ => h) hx
        (fun cmt he => absurd ⟨cmt, he⟩ hcomment) h (eventMeets_free e) hok
    · exact saxEvent_kept (hiding_tagKept (fun _ _ h => .inr h) fun _ _ _ h hg => h.grows hg) hx
        (fun cmt he => absurd ⟨cmt, he⟩ hcomment) h (hkeeps hpos) hok

theorem isHtml_tagKept (b : Bool) :
    TagKept (fun _ _ => True) (fun _ _ _ => True) fun pd => pd.isHtml = b where
  calm _ _ h hcalm := hcalm.isHtml.trans h
  undefXmlTag _ _ _ h _ _ hok := by
    obtain ⟨n, hcalm⟩ := undefXmlTag_calm hok
    exact hcalm.isHtml.trans h
  undefHtmlMeta _ _ _ h hok := by
    obtain ⟨n, hcalm⟩ := undefHtmlMeta_calm hok
    exact ⟨hcalm.isHtml.trans h, hcalm.isHtml.trans h⟩
  push _ _ _ _ h _ hok := (pushTags_ok hok).2.2.2.isHtml.trans h
  pop _ _ _ h hok := by
    obtain ⟨_, _, _, -, -, -, -, hcalm⟩ := popTags_ok hok
    exact hcalm.isHtml.trans h
  mono _ _ _ h _ _ := h

/-- A document does not change its kind. -/
theorem saxStep_isHtml {e : SaxEvent} (hok : saxStep env fuel pd e = .ok pd') :
    pd'.isHtml = pd.isHtml := by
  refine saxEvent_kept (isHtml_tagKept pd.isHtml) ?_ ?_ rfl (eventMeets_free e) hok
  · intro _ _ _ _ h hinclude
    exact (xincludeDeep_calm hinclude).isHtml.trans h
  · intro cmt _
    obtain ⟨n, hcalm⟩ := mycomments_calm pd cmt
    exact hcalm.isHtml

private theorem startMeets_of_isHtml {tag : XmlStr} {atts : Option Atts}
    {xmlnsPrefix : Option XmlStr} (h : pd.isHtml = true) :
    StartMeets env.toTagEnv Defined (fun _ _ _ => True) pd tag atts xmlnsPrefix := by
  refine ⟨fun swishtag _ => ⟨?_, ?_⟩, fun _ _ _ => trivial⟩
  · intro _ metaname metacontent _ pd₁ hundef
    obtain ⟨n, hcalm⟩ := undefHtmlMeta_calm hundef
    have hkind : pd₁.isHtml = true :=
      hcalm.isHtml.trans ((htmlBump_calm env.toTagEnv { pd with tag := .null }
        swishtag).isHtml.trans h)
    exact ⟨fun hxml => absurd (hkind.symm.trans hxml) (by decide), fun _ _ _ => trivial⟩
  · intro hxml
    exact absurd (h.symm.trans hxml) (by decide)

/-- In an HTML document no tag shows hidden text again. -/
theorem keepsHidden_of_isHtml (h : pd.isHtml = true) (e : SaxEvent) :
    KeepsHidden env fuel (pd, depth) e := by
  intro _
  cases e with
  | startElement name atts => exact startMeets_of_isHtml h
  | endElement name => exact fun hxml => absurd (h.symm.trans hxml) (by decide)
  | startElementNs localname xmlnsPrefix uri attributes =>
      intro pd₁ hinclude
      refine startMeets_of_isHtml (startXinclude_kept (P := fun pd => pd.isHtml = true) ?_ h
        hinclude)
      intro _ _ _ _ h hinclude
      exact (xincludeDeep_calm hinclude).isHtml.trans h
  | endElementNs localname xmlnsPrefix =>
      exact fun hxml => absurd (h.symm.trans hxml) (by decide)
  | startDocument | endDocument | characters ch | comment cmt => trivial

/-- Every run over an HTML document keeps hidden what the comments hide. -/
theorem steps_keepsHidden_of_isHtml {events : List SaxEvent} (h : pd.isHtml = true) :
    Steps (hidingStep env fuel) (KeepsHidden env fuel) (pd, depth) events := by
  refine steps_of_invariant (I := fun s => s.1.isHtml = true) ?_ h ?_
  · rintro ⟨pd₁, depth₁⟩ e ⟨pd₂, depth₂⟩ h hstep
    exact (saxStep_isHtml (withGhost_ok_iff.mp hstep).1).trans h
  · rintro ⟨pd₁, depth₁⟩ e h
    exact keepsHidden_of_isHtml h e

/-- Text that is delivered while a `noindex` comment is open changes nothing. -/
theorem run_hidden {pd₀ : ParserData} {events : List SaxEvent} {depth : Nat}
    (hindex : pd₀.config.flags.undefMetas = .index) (hzero : pd₀.ignoreContent = 0)
    (hkeeps : Steps (hidingStep env fuel) (KeepsHidden env fuel) (pd₀, 0) events)
    (hrun : run (hidingStep env fuel) (pd₀, 0) events = .ok (pd, depth)) (hdepth : 0 < depth)
    (ch : XmlStr) : saxStep env fuel pd (.characters ch) = .ok pd := by
  have hhiding : Hiding depth pd := by
    refine invariant_of_steps (I := fun s => Hiding s.2 s.1) ?_ ⟨hzero, hindex⟩ hkeeps hrun
    rintro ⟨pd₁, depth₁⟩ e ⟨pd₂, depth₂⟩ h hmeet hstep
    obtain ⟨hok, rfl⟩ := withGhost_ok_iff.mp hstep
    exact saxStep_hiding h hmeet hok
  have hignore : pd.ignoreContent ≠ 0 := by
    rw [hhiding.ignoreContent]
    omega
  have hsame : bufferCharacters pd ch = pd := by
    simp [bufferCharacters, hignore]
  exact congrArg Except.ok hsame

end Hidden

/-! ## An unknown tag in hidden text -/

/-- A document that begins with `<doc><!-- noindex --><b>` -/
def hiddenB : List SaxEvent :=
  [.startElementNs (lit "doc") none none [], .comment (lit " noindex "),
    .startElementNs (lit "b") none none []]

/-- The parser at the start of an XML document, with the default config. -/
def freshData : ParserData := initParserData (configSetDefault (lit "C")) .idle docinfoInit

/-- The tag `b` is not known, and the text in it is buffered. -/
theorem run_shows_hidden :
    ¬ ∀ env fuel config analyzer docinfo events pd depth ch pd',
      config.flags.undefMetas = .index →
      run (hidingStep env fuel) (initParserData config analyzer docinfo, 0) events =
        .ok (pd, depth) →
      0 < depth → saxStep env fuel pd (.characters ch) = .ok pd' →
      pd'.metaBuf = pd.metaBuf ∧ pd'.propBuf = pd.propBuf := by
  intro h
  have hsame := h .alone 0 (configSetDefault (lit "C")) .idle docinfoInit hiddenB _ 1
    (lit "secret") _ rfl rfl (by decide) rfl
  exact absurd hsame.1 (by decide)

/-- Text behind the comment itself is hidden. -/
theorem run_hidden_doc :
    ∃ pd, run (hidingStep .alone 0) (freshData, 0) (hiddenB.take 2) = .ok (pd, 1) ∧
      saxStep .alone 0 pd (.characters (lit "secret")) = .ok pd := by
  have hkeeps : Steps (hidingStep .alone 0) (KeepsHidden .alone 0) (freshData, 0)
      (hiddenB.take 2) := by
    refine steps_cons_iff.mpr ⟨fun h => absurd h (by decide), ?_⟩
    rintro ⟨pd, depth⟩ -
    exact steps_cons_iff.mpr ⟨fun _ => trivial, fun _ _ => steps_nil⟩
  exact ⟨_, rfl, run_hidden rfl rfl hkeeps rfl (by decide) (lit "secret")⟩

end LibSwish3
