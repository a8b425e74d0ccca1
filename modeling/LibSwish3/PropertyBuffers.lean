import LibSwish3.Attribution
import LibSwish3.StackNames
import LibSwish3.Nested

/-!
# The buffers of the Properties

`add_stack_to_prop_buf` writes to the Property that ends, or to the target of its alias, and to
every Property on the stack, and `swish_nb_add_str` croaks where there is no buffer of that name.
A parser has a buffer for each Property that was in the config when it started, and for each it
has made up itself.  What has none is a name that only looks like a Property, as the target of an
alias may, and a Property that an included document has made up.

## Main definitions

* `HasBuffer` — a Property that can be written to.
* `PushesBuffered`, `BuffersMet` — the steps that push only such Properties.
* `run_buffered` — these never croak.
-/

namespace LibSwish3

open Runs Tables

/-! ## Failures of tags -/

/-- An invariant of tags that also says how the stacks fail. -/
structure TextFails (C : ParserData → XmlStr → Option XmlStr → Prop) (P : ParserData → Prop) :
    Prop extends TextSteps C P where
  pushFails : ∀ pd raw tag, P pd → C pd raw tag → FailsAs NotMissing (pushTags pd raw tag)
  popFails : ∀ pd raw, P pd → FailsAs NotMissing (popTags pd raw)

section TagFails

variable {env : TagEnv} {pd : ParserData} {name : XmlStr} {xmlnsPrefix : Option XmlStr}

theorem freeTag_fails : FailsAs NotMissing (freeTag pd) :=
  (CPtr.failsAs_read _).bind fun _ _ => failsAs_ok _

theorem normalizeTag_fails : FailsAs NotMissing (normalizeTag env pd name xmlnsPrefix) := by
  refine (strTolower_fails _).bind fun swishtag _ => ?_
  cases xmlnsPrefix with
  | none => exact failsAs_ok _
  | some xmlnsPrefix =>
      simp only
      split
      · exact failsAs_ok _
      · exact (strTolower_fails _).bind fun _ _ => failsAs_ok _

theorem hashAdd_fails {α : Type} (hash : HashTable α) (key : XmlStr) (value : α) :
    FailsAs NotMissing (hashAdd hash key value) := by
  rw [hashAdd]
  split
  · exact failsAs_croak _
  · exact failsAs_ok _

theorem autoMetaname_fails : FailsAs NotMissing (autoMetaname pd name) := by
  have hnew : FailsAs NotMissing (metanameNew name pd.config) :=
    (hashAdd_fails _ _ _).bind fun _ _ => (hashAdd_fails _ _ _).bind fun _ _ => failsAs_ok _
  exact hnew.bind fun _ _ => failsAs_ok _

theorem autoProperty_fails : FailsAs NotMissing (autoProperty pd name) := by
  have hnew : FailsAs NotMissing (propertyNew name pd.config) :=
    (hashAdd_fails _ _ _).bind fun _ _ => (hashAdd_fails _ _ _).bind fun _ _ => failsAs_ok _
  rw [autoProperty]
  split
  · exact failsAs_ok _
  · exact hnew.bind fun _ _ => failsAs_ok _

theorem undefHtmlMeta_fails : FailsAs NotMissing (undefHtmlMeta pd name) := by
  rw [undefHtmlMeta]
  split
  · exact failsAs_ok _
  · split
    · exact failsAs_croak _
    · exact failsAs_ok _
    · exact autoMetaname_fails
    · exact autoMetaname_fails.bind fun _ _ => autoProperty_fails
    · exact failsAs_ok _

theorem undefXmlTag_fails : FailsAs NotMissing (undefXmlTag pd name) := by
  rw [undefXmlTag]
  split
  · exact failsAs_ok _
  · split
    · exact failsAs_croak _
    · exact failsAs_ok _
    · exact autoMetaname_fails
    · exact autoMetaname_fails.bind fun _ _ => autoProperty_fails
    · exact failsAs_ok _

theorem undefXmlAttr_fails (value : XmlStr) : FailsAs NotMissing (undefXmlAttr pd name value) := by
  rw [undefXmlAttr]
  split
  · exact failsAs_ok _
  · split
    · exact failsAs_croak _
    · exact failsAs_ok _
    · exact failsAs_ok _
    · exact autoMetaname_fails
    · exact autoMetaname_fails.bind fun _ _ => autoProperty_fails
    · exact failsAs_ok _

theorem bakeTagPlain_fails : FailsAs NotMissing (bakeTagPlain env pd name xmlnsPrefix) := by
  refine normalizeTag_fails.bind fun swishtag _ => ?_
  have hplain : FailsAs NotMissing (plainTag env pd swishtag) := by
    rw [plainTag]
    split
    · exact failsAs_ok _
    · exact undefXmlTag_fails
  exact hplain.bind fun _ _ => failsAs_ok _

theorem attributeNames_fails (swishtag : XmlStr) (att : XmlStr × Option XmlStr) :
    FailsAs NotMissing (attributeNames env pd swishtag att) := by
  refine (strTolower_fails _).bind fun attrLower _ => ?_
  obtain ⟨attr, value⟩ := att
  cases value with
  | none => exact failsAs_fault _
  | some value => exact (strTolower_fails _).bind fun _ _ => failsAs_ok _

variable {C : ParserData → XmlStr → Option XmlStr → Prop} {P : ParserData → Prop}

theorem TextFails.openTagPlain (H : TextFails C P) (hP : P pd)
    (hmeets : PlainMeets env (fun _ _ => True) C pd name xmlnsPrefix) :
    FailsAs NotMissing (openTagPlain env pd name xmlnsPrefix) := by
  refine freeTag_fails.bind fun pd₀ hfree => bakeTagPlain_fails.bind fun s hbake => ?_
  obtain ⟨baked, pd₁⟩ := s
  have hbakes := bakesPlain_of_ok hfree hbake
  have hP₁ := H.tagSteps.bakesPlain hP (fun _ _ _ => trivial) hbakes
  exact H.pushFails _ _ _ hP₁ (hmeets.2 _ _ hbakes)

theorem TextFails.closeTag (H : TextFails C P) (hP : P pd) :
    FailsAs NotMissing (closeTag env pd name xmlnsPrefix) := by
  refine freeTag_fails.bind fun pd₀ hfree => bakeTagPlain_fails.bind fun s hbake => ?_
  obtain ⟨baked, pd₁⟩ := s
  exact H.popFails _ _
    (H.tagSteps.bakesPlain hP (fun _ _ _ => trivial) (bakesPlain_of_ok hfree hbake))

theorem TextFails.nestedTag (H : TextFails C P) (hP : P pd)
    (hmeets : PlainMeets env (fun _ _ => True) C { pd with bumpWord := true } name xmlnsPrefix)
    (content : XmlStr) : FailsAs NotMissing (nestedTag env pd name content xmlnsPrefix) := by
  have hP₀ := H.bumpWord _ true hP
  refine (H.openTagPlain hP₀ hmeets).bind fun pd₁ hopen => ?_
  have hP₁ := H.tagSteps.openTagPlain hP₀ hmeets hopen
  exact (H.closeTag (H.characters _ content hP₁)).bind fun _ _ => failsAs_ok _

theorem TextFails.bakeAttribute (H : TextFails C P) {s : ParserData × XmlStr}
    {att : XmlStr × Option XmlStr} (hP : P s.1)
    (hmeets : AttributeMeets env
      (fun pd => PlainMeets env (fun _ _ => True) C { pd with bumpWord := true }) xmlnsPrefix s
      att) :
    FailsAs NotMissing (bakeAttribute env xmlnsPrefix s att) := by
  refine (attributeNames_fails _ _).bind fun names hnames => ?_
  obtain ⟨swishtag, metanameFromAttr, attrValLower⟩ := names
  refine (undefXmlAttr_fails _).bind fun pd₁ hundef => ?_
  have htag : FailsAs NotMissing
      (attributeTag env pd₁ metanameFromAttr attrValLower xmlnsPrefix) := by
    rw [attributeTag]
    split
    · rename_i hmem
      exact H.nestedTag (H.undefXmlAttr hP hundef) (hmeets _ _ _ _ hnames hundef hmem) _
    · exact failsAs_ok _
  exact htag.bind fun _ _ => failsAs_ok _

theorem TextFails.bakeTag (H : TextFails C P) {atts : Option Atts} (hP : P pd)
    (hmeets : BakeMeets env
      (fun pd => PlainMeets env (fun _ _ => True) C { pd with bumpWord := true })
      (fun _ _ => True) pd name atts xmlnsPrefix) :
    FailsAs NotMissing (bakeTag env pd name atts xmlnsPrefix) := by
  refine normalizeTag_fails.bind fun swishtag hnorm => ?_
  obtain ⟨hhtml, hxml⟩ := hmeets swishtag hnorm
  split
  · rename_i hisHtml
    obtain ⟨b, hbump⟩ := htmlBump_eq env pd swishtag
    have hPb : P (htmlBump env pd swishtag) := hbump ▸ H.bumpWord _ b hP
    simp only
    split
    · rename_i metaname metacontent hfound
      have hbaked : FailsAs NotMissing
          (bakeHtmlMeta env (htmlBump env pd swishtag) metaname metacontent xmlnsPrefix) := by
        refine undefHtmlMeta_fails.bind fun pd₁ hundef => ?_
        cases metacontent with
        | none => exact failsAs_ok _
        | some content =>
            have hN := hhtml hisHtml metaname content hfound pd₁ hundef
            exact (H.nestedTag (H.undefHtmlMeta hPb hundef) hN content).bind
              fun _ _ => failsAs_ok _
      exact hbaked.bind fun _ _ => failsAs_ok _
    · exact failsAs_ok _
  · rename_i hisHtml
    obtain ⟨hsteps, -⟩ := hxml (by simpa using hisHtml)
    have hrun : EndsWell (fun s : ParserData × XmlStr => P s.1) NotMissing
        (run (LibSwish3.bakeAttribute env xmlnsPrefix) ({ pd with bumpWord := true }, swishtag)
          (atts.getD [])) := by
      refine endsWell_run ?_ (H.bumpWord _ true hP) hsteps
      intro s att hs hmeet
      exact ⟨fun _ hok => (H.tagSteps.bakeSteps.bakeAttribute hs hmeet hok).1,
        H.bakeAttribute hs hmeet⟩
    exact hrun.fails.bind fun _ _ => undefXmlTag_fails.bind fun _ _ => failsAs_ok _

theorem TextFails.openTag (H : TextFails C P) {atts : Option Atts} (hP : P pd)
    (hmeets : StartMeets env (fun _ _ => True) C pd name atts xmlnsPrefix) :
    FailsAs NotMissing (openTag env pd name atts xmlnsPrefix) := by
  refine freeTag_fails.bind fun pd₀ hfree => ?_
  rw [freeTag_ok hfree]
  have hP₀ : P { pd with tag := .null } := H.tag _ _ hP
  refine (H.bakeTag hP₀ hmeets.bake).bind fun s hbake => ?_
  obtain ⟨baked, pd₁⟩ := s
  have hP₁ := H.tagSteps.bakeSteps.bakeTag hP₀ hmeets.bake hbake
  exact H.pushFails _ _ _ (H.tag _ _ hP₁) (hmeets.push baked pd₁ hbake)

/-- How an event fails, when including a document and flushing at the end fail that way. -/
theorem TextFails.saxEvent (H : TextFails C P) {env : SaxEnv}
    {xinclude : ParserData → XmlStr → Bool → Swish ParserData} {e : SaxEvent}
    (hx : ∀ uri isText, includedBy env pd e = some (uri, isText) →
      EndsWell P NotMissing (xinclude pd uri isText))
    (hend : FailsAs NotMissing (flushBuffer pd Swish.defaultMetaname Swish.defaultMetaname))
    (hP : P pd) (hmeets : EventMeets env xinclude (fun _ _ => True) C pd e) :
    FailsAs NotMissing (saxEvent env xinclude pd e) := by
  cases e with
  | startDocument => exact failsAs_ok _
  | endDocument => exact hend
  | startElement name atts => exact H.openTag hP hmeets
  | endElement name => exact H.closeTag hP
  | startElementNs localname xmlnsPrefix uri attributes =>
      have hinclude : EndsWell P NotMissing
          (startXinclude env xinclude pd localname uri (sax2Atts attributes)) := by
        rw [startXinclude_eq xinclude pd localname xmlnsPrefix]
        split
        · rename_i found
          exact hx _ _ found
        · exact endsWell_ok hP
      exact hinclude.fails.bind fun pd₁ hok =>
        H.openTag (hinclude.returns pd₁ hok) (hmeets pd₁ hok)
  | endElementNs localname xmlnsPrefix => exact H.closeTag hP
  | characters ch => exact failsAs_ok _
  | comment cmt => exact failsAs_ok _

end TagFails

/-! ## Properties with a buffer -/

/-- There is a buffer for the Property, and for the target of its alias. -/
def HasBuffer (pd : ParserData) (name : XmlStr) : Prop :=
  name ∈ pd.properties ∧ ∃ prop, pd.config.properties.lookup name = some prop ∧
    ∀ target, prop.aliasFor = .live target → target ∈ pd.properties

/-- What `add_stack_to_prop_buf` can be asked to write to has a buffer. -/
structure Buffered (analyzer : Analyzer) (pd : ParserData) : Prop where
  analyzer : pd.analyzer = analyzer
  known : ∀ k ∈ pd.properties, k ∈ pd.config.properties
  propstack : ∀ t ∈ pd.propstack.tags, t.baked = Swish.domStr ∨ HasBuffer pd t.baked
  sentinel : Swish.domStr ∈ pd.config.properties → HasBuffer pd Swish.domStr

/-- A tag that is taken for a Property is pushed under the name of one with a buffer. -/
def PushesBuffered (pd : ParserData) (raw : XmlStr) (tag : Option XmlStr) : Prop :=
  isKey pd.config.properties tag (domContext pd raw tag) →
    ∀ baked, pushedName pd.config tag (domContext pd raw tag) = .ok baked → HasBuffer pd baked

/-- The condition on an event, and on those of the documents it includes.  The name of the bottom
entry must not become a Property in one of these. -/
def BuffersMet (env : SaxEnv) : (fuel : Nat) → ParserData → SaxEvent → Prop :=
  DeepMeets env
    (fun fuel => EventMeets env (xincludeDeep env fuel) (fun _ _ => True) PushesBuffered)
    (fun _ => True)
    (fun parent child =>
      Swish.domStr ∈ child.config.properties → Swish.domStr ∈ parent.config.properties)

/-- The tokenizer of the analyzer does not croak about a named buffer. -/
def TokenizerFails (analyzer : Analyzer) : Prop :=
  ∀ tl buf m context, FailsAs NotMissing (analyzer.tokenizer tl buf m context)

section Buffered

variable {env : SaxEnv} {analyzer : Analyzer} {pd pd' : ParserData} {name : XmlStr}

theorem HasBuffer.mono (h : HasBuffer pd name) (hextends : Extends pd.config pd'.config)
    (hkeys : ∀ k ∈ pd.properties, k ∈ pd'.properties) : HasBuffer pd' name := by
  obtain ⟨hmem, prop, hlook, halias⟩ := h
  exact ⟨hkeys _ hmem, prop, hextends.properties.retained _ _ hlook,
    fun target ht => hkeys _ (halias target ht)⟩

/-- Neither the stack nor the names of the config and the buffers have changed. -/
theorem Buffered.congr (h : Buffered analyzer pd) (hanalyzer : pd'.analyzer = pd.analyzer)
    (hstack : ∀ t ∈ pd'.propstack.tags, t ∈ pd.propstack.tags) (hconfig : pd'.config = pd.config)
    (hkeys : ∀ k, k ∈ pd'.properties ↔ k ∈ pd.properties) : Buffered analyzer pd' := by
  have hmono : ∀ name, HasBuffer pd name → HasBuffer pd' name :=
    fun name h => h.mono (hconfig ▸ .refl _) fun k => (hkeys k).mpr
  refine ⟨hanalyzer.trans h.analyzer, ?_, ?_, ?_⟩
  · rw [hconfig]
    exact fun k hk => h.known k ((hkeys k).mp hk)
  · exact fun t ht => (h.propstack t (hstack t ht)).imp_right (hmono _)
  · rw [hconfig]
    exact fun hmem => hmono _ (h.sentinel hmem)

theorem addStackToPropBuf_keys {baked : Option XmlStr}
    (h : addStackToPropBuf pd baked = .ok pd') (k : XmlStr) :
    k ∈ pd'.properties ↔ k ∈ pd.properties := by
  obtain ⟨⟨s, cleanwsp⟩, hadd, h⟩ := bind_ok_iff.mp h
  obtain ⟨⟨properties, propBuf⟩, hrun, h⟩ := bind_ok_iff.mp h
  cases h
  have hfirst : k ∈ s.1 ↔ k ∈ pd.properties := by
    cases baked with
    | none =>
        cases hadd
        rfl
    | some name =>
        obtain ⟨⟨storedAs, cleanwsp'⟩, -, hadd⟩ := bind_ok_iff.mp hadd
        obtain ⟨nb, hnb, hadd⟩ := bind_ok_iff.mp hadd
        cases hadd
        exact mem_nbAddStr hnb k
  refine invariant (I := fun s : NamedBuffer × XmlStr => k ∈ s.1 ↔ k ∈ pd.properties) ?_ hfirst
    hrun
  intro s tag s' hs hstep
  unfold propStackStep at hstep
  split at hstep
  · cases hstep
    exact hs
  · obtain ⟨nb, hnb, hstep⟩ := bind_ok_iff.mp hstep
    cases hstep
    exact (mem_nbAddStr hnb k).trans hs

theorem nbAddStr_fails {nb : NamedBuffer} (str joiner : XmlStr) (cleanwsp : Bool)
    {autovivify : Bool} (h : autovivify = true ∨ name ∈ nb) :
    FailsAs NotMissing (nbAddStr nb name str joiner cleanwsp autovivify) := by
  have hadded : ∃ nb', nbAddStr nb name str joiner cleanwsp autovivify = .ok nb' :=
    nbAddStr_ok_of _ _ _ h
  obtain ⟨nb', hadd⟩ := hadded
  rw [hadd]
  exact failsAs_ok nb'

/-- What a Property with a buffer is stored under has one too. -/
theorem propertyStoredAs_endsWell (h : name ∈ pd.config.properties → HasBuffer pd name) :
    EndsWell (fun s : XmlStr × Bool => s.1 ∈ pd.properties) NotMissing
      (propertyStoredAs pd.config name) := by
  rw [propertyStoredAs]
  cases hlook : pd.config.properties.lookup name with
  | none => exact ⟨fun _ h => (by cases h), failsAs_fault _⟩
  | some prop =>
      obtain ⟨hmem, prop', hlook', htarget⟩ := h (mem_of_lookup hlook)
      have hsame : prop' = prop := Option.some.inj (hlook'.symm.trans hlook)
      subst hsame
      have hread : EndsWell (fun target : Option XmlStr => target.getD name ∈ pd.properties)
          NotMissing prop'.aliasFor.read := by
        refine ⟨fun target hread => ?_, CPtr.failsAs_read _⟩
        cases halias : prop'.aliasFor with
        | null =>
            rw [halias] at hread
            cases hread
            exact hmem
        | live name' =>
            rw [halias] at hread
            cases hread
            exact htarget name' halias
        | freed =>
            rw [halias] at hread
            cases hread
      exact hread.bind fun _ _ h => endsWell_ok h

/-- The Property that ends makes no buffer and misses none. -/
theorem addToProperty_endsWell {baked : Option XmlStr}
    (hbaked : ∀ k ∈ baked, k ∈ pd.config.properties → HasBuffer pd k) :
    EndsWell (fun s : (NamedBuffer × XmlStr) × Bool => ∀ k, k ∈ s.1.1 ↔ k ∈ pd.properties)
      NotMissing (addToProperty pd baked) := by
  cases baked with
  | none => exact endsWell_ok fun _ => Iff.rfl
  | some name =>
      refine (propertyStoredAs_endsWell (hbaked name rfl)).bind fun s _ hs => ?_
      obtain ⟨storedAs, cleanwsp⟩ := s
      exact EndsWell.bind ⟨fun nb hnb => mem_nbAddStr hnb, nbAddStr_fails _ _ _ (.inr hs)⟩
        fun nb _ hkeys => endsWell_ok hkeys

/-- Nor do the Properties on the stack. -/
theorem propStack_endsWell {cleanwsp : Bool} {s : NamedBuffer × XmlStr}
    (hkeys : ∀ k, k ∈ s.1 ↔ k ∈ pd.properties)
    (hstack : ∀ t ∈ pd.propstack.tags, t.baked = Swish.domStr ∨ t.baked ∈ pd.properties) :
    EndsWell (fun s : NamedBuffer × XmlStr => ∀ k, k ∈ s.1 ↔ k ∈ pd.properties)
      NotMissing (run (propStackStep cleanwsp) s pd.propstack.tags) := by
  refine endsWell_run ?_ hkeys (steps_of_forall
    (Q := fun t : Tag => t.baked = Swish.domStr ∨ t.baked ∈ pd.properties) hstack)
  intro s t hkeys ht
  rw [propStackStep]
  split
  · exact endsWell_ok hkeys
  · rename_i hne
    have hmem : t.baked ∈ s.1 := (hkeys _).mpr (ht.resolve_left hne)
    exact EndsWell.bind
      ⟨fun nb hnb k => (mem_nbAddStr hnb k).trans (hkeys k), nbAddStr_fails _ _ _ (.inr hmem)⟩
      fun nb _ hkeys => endsWell_ok hkeys

/-- Where every name has a buffer, none is missing. -/
theorem addStackToPropBuf_fails {baked : Option XmlStr}
    (hstack : ∀ t ∈ pd.propstack.tags, t.baked = Swish.domStr ∨ t.baked ∈ pd.properties)
    (hbaked : ∀ k ∈ baked, k ∈ pd.config.properties → HasBuffer pd k) :
    FailsAs NotMissing (addStackToPropBuf pd baked) := by
  have hfirst := addToProperty_endsWell hbaked
  refine hfirst.fails.bind fun s hok => ?_
  have hkeys := hfirst.returns s hok
  obtain ⟨s, cleanwsp⟩ := s
  exact (propStack_endsWell hkeys hstack).fails.bind fun _ _ => failsAs_ok _

theorem flushBuffer_fails (htok : TokenizerFails pd.analyzer) (metaname context : XmlStr) :
    FailsAs NotMissing (flushBuffer pd metaname context) := by
  have hstored : FailsAs NotMissing (metanameStoredAs pd.config metaname) := by
    rw [metanameStoredAs]
    split
    · exact failsAs_fault _
    · exact (CPtr.failsAs_read _).bind fun _ _ => failsAs_ok _
  have hcascade : ∀ storedAs metanames,
      FailsAs NotMissing (cascadeMetas pd storedAs metanames) := by
    intro storedAs metanames
    rw [cascadeMetas]
    split
    · refine (endsWell_run (I := fun _ => True) (C := fun _ _ => True) ?_ trivial
        fun _ _ _ _ _ _ => trivial).fails
      intro nb t _ _
      refine ⟨fun _ _ => trivial, ?_⟩
      rw [cascadeStep]
      split
      · exact failsAs_ok _
      · exact nbAddStr_fails _ _ _ (.inl rfl)
    · exact failsAs_ok _
  refine hstored.bind fun storedAs _ => (nbAddStr_fails _ _ _ (.inl rfl)).bind fun nb _ =>
    (hcascade _ _).bind fun metanames _ => FailsAs.bind ?_ fun _ _ => failsAs_ok _
  rw [tokenizeBuffer]
  split
  · exact failsAs_ok _
  · exact (htok _ _ _ _).bind fun _ _ => failsAs_ok _

theorem flushHead_fails (htok : TokenizerFails pd.analyzer) :
    FailsAs NotMissing (flushHead pd) := by
  refine FailsAs.bind ?_ fun top _ => flushBuffer_fails htok _ _
  rw [TagStack.head]
  split
  · exact failsAs_fault _
  · exact failsAs_ok _

theorem pushTags_buffered {raw : XmlStr} {tag : Option XmlStr} (h : Buffered analyzer pd)
    (hpush : PushesBuffered pd raw tag) (hok : pushTags pd raw tag = .ok pd') :
    Buffered analyzer pd' := by
  obtain ⟨hstack, -, hconfig, -⟩ := pushTags_ok hok
  have hsame : pd'.analyzer = pd.analyzer ∧ ∀ k, k ∈ pd'.properties ↔ k ∈ pd.properties := by
    obtain ⟨top, -, hok⟩ := bind_ok_iff.mp hok
    obtain ⟨pd₁, hprop, hok⟩ := bind_ok_iff.mp hok
    obtain ⟨metanames, tokens, nwords, metaBuf, metastack, rfl⟩ := pushMetaname_fields hok
    unfold pushProperty at hprop
    split at hprop
    · obtain ⟨pd₂, hadd, hprop⟩ := bind_ok_iff.mp hprop
      obtain ⟨baked, -, hprop⟩ := bind_ok_iff.mp hprop
      cases hprop
      have hkeys := addStackToPropBuf_keys hadd
      obtain ⟨properties, rfl⟩ := addStackToPropBuf_ok hadd
      exact ⟨rfl, hkeys⟩
    · cases hprop
      exact ⟨rfl, fun _ => Iff.rfl⟩
  have hmono : ∀ name, HasBuffer pd name → HasBuffer pd' name :=
    fun name h => h.mono (hconfig ▸ .refl _) fun k => (hsame.2 k).mpr
  refine ⟨hsame.1.trans h.analyzer, ?_, ?_, ?_⟩
  · rw [hconfig]
    exact fun k hk => h.known k ((hsame.2 k).mp hk)
  · unfold Pushes at hstack
    split at hstack
    · rename_i hkey
      obtain ⟨baked, hbaked, hstack⟩ := hstack
      rw [hstack]
      intro t ht
      rw [TagStack.push_tags] at ht
      rcases List.mem_cons.mp ht with rfl | ht
      · exact .inr (hmono _ (hpush hkey baked hbaked))
      · exact (h.propstack t ht).imp_right (hmono _)
    · rw [hstack]
      exact fun t ht => (h.propstack t ht).imp_right (hmono _)
  · rw [hconfig]
    exact fun hmem => hmono _ (h.sentinel hmem)

theorem popTags_buffered {raw : XmlStr} (h : Buffered analyzer pd)
    (hok : popTags pd raw = .ok pd') : Buffered analyzer pd' := by
  obtain ⟨_, _, _, hpop, -, -, hconfig, -⟩ := popTags_ok hok
  have hsame : pd'.analyzer = pd.analyzer ∧ ∀ k, k ∈ pd'.properties ↔ k ∈ pd.properties := by
    obtain ⟨pd₁, hprop, hok⟩ := bind_ok_iff.mp hok
    obtain ⟨pd₂, hmeta, hok⟩ := bind_ok_iff.mp hok
    obtain ⟨metanames, tokens, nwords, metaBuf, metastack, rfl⟩ := popMetaname_fields hmeta
    have hprop' : pd₁.analyzer = pd.analyzer ∧ ∀ k, k ∈ pd₁.properties ↔ k ∈ pd.properties := by
      obtain ⟨⟨st, propstack⟩, -, hprop⟩ := bind_ok_iff.mp hprop
      cases st with
      | none =>
          cases hprop
          exact ⟨rfl, fun _ => Iff.rfl⟩
      | some st =>
          have hkeys := addStackToPropBuf_keys hprop
          obtain ⟨properties, rfl⟩ := addStackToPropBuf_ok hprop
          exact ⟨rfl, hkeys⟩
    split at hok
    · cases hok
    · cases hok
      exact hprop'
  exact h.congr hsame.1 (popOnMatch_subset hpop) hconfig hsame.2

theorem pushTags_fails {raw : XmlStr} {tag : Option XmlStr} (htok : TokenizerFails analyzer)
    (h : Buffered analyzer pd) : FailsAs NotMissing (pushTags pd raw tag) := by
  have hhead : FailsAs NotMissing (pd.domstack.push raw (tag.getD raw) Swish.dot).head :=
    failsAs_ok _
  have hname : ∀ context, FailsAs NotMissing (pushedName pd.config tag context) := by
    intro context
    rw [pushedName]
    split
    · exact failsAs_ok _
    · exact dupTag_fails _
  have hstack : ∀ t ∈ pd.propstack.tags, t.baked = Swish.domStr ∨ t.baked ∈ pd.properties :=
    fun t ht => (h.propstack t ht).imp_right fun hbuffer => hbuffer.1
  have hprop : ∀ domstack context,
      EndsWell (fun pd₁ => pd₁.analyzer = analyzer ∧ pd₁.config = pd.config) NotMissing
        (pushProperty { pd with domstack } raw tag context) := by
    intro domstack context
    rw [pushProperty]
    split
    · have hadd : EndsWell (fun pd₁ => pd₁.analyzer = analyzer ∧ pd₁.config = pd.config)
          NotMissing (addStackToPropBuf { pd with domstack } none) := by
        refine ⟨?_, addStackToPropBuf_fails hstack fun _ h => by cases h⟩
        intro pd₁ hadd
        obtain ⟨properties, rfl⟩ := addStackToPropBuf_ok hadd
        exact ⟨h.analyzer, rfl⟩
      refine hadd.bind fun pd₁ _ hsame => ?_
      exact EndsWell.bind (Q := fun _ => True)
        ⟨fun _ _ => trivial, by rw [hsame.2]; exact hname _⟩ fun baked _ _ => endsWell_ok hsame
    · exact endsWell_ok ⟨h.analyzer, rfl⟩
  refine hhead.bind fun top _ => ?_
  refine (hprop _ _).fails.bind fun pd₁ hok => ?_
  obtain ⟨hanalyzer, hconfig⟩ := (hprop _ _).returns pd₁ hok
  rw [pushMetaname]
  split
  · refine (flushHead_fails (hanalyzer ▸ htok)).bind fun pd₂ hflush => ?_
    rw [flushHead_config hflush, hconfig]
    exact (hname _).bind fun _ _ => failsAs_ok _
  · exact failsAs_ok _

theorem popTags_fails {raw : XmlStr} (htok : TokenizerFails analyzer)
    (h : Buffered analyzer pd) : FailsAs NotMissing (popTags pd raw) := by
  have hpop : ∀ stack : TagStack, FailsAs NotMissing (stack.popOnMatch raw) := by
    intro stack
    refine FailsAs.bind ?_ fun _ _ => failsAs_ok _
    rw [TagStack.head]
    split
    · exact failsAs_fault _
    · exact failsAs_ok _
  have hprop : EndsWell (fun pd₁ => pd₁.analyzer = analyzer) NotMissing (popProperty pd raw) := by
    refine EndsWell.bind
      (Q := fun s : Option Tag × TagStack => pd.propstack.popOnMatch raw = .ok s)
      ⟨fun _ h => h, hpop _⟩ fun s _ hs => ?_
    obtain ⟨st, propstack⟩ := s
    cases st with
    | none => exact endsWell_ok h.analyzer
    | some st =>
        refine ⟨?_, addStackToPropBuf_fails ?_ ?_⟩
        · intro pd₁ hadd
          obtain ⟨properties, rfl⟩ := addStackToPropBuf_ok hadd
          exact h.analyzer
        · intro t ht
          exact (h.propstack t (popOnMatch_subset hs t ht)).imp_right fun hbuffer => hbuffer.1
        · rintro _ ⟨⟩ hmem
          rcases h.propstack st (popOnMatch_mem hs) with hdom | hbuffer
          · rw [hdom] at hmem ⊢
            exact h.sentinel hmem
          · exact hbuffer
  refine hprop.fails.bind fun pd₁ hok => ?_
  have hanalyzer := hprop.returns pd₁ hok
  have hmeta : FailsAs NotMissing (popMetaname pd₁ raw) := by
    refine (hpop _).bind fun s _ => ?_
    obtain ⟨st, metastack⟩ := s
    cases st with
    | none => exact failsAs_ok _
    | some st => exact flushBuffer_fails (by rw [hanalyzer]; exact htok) _ _
  refine hmeta.bind fun pd₂ _ => ?_
  split
  · exact failsAs_fault _
  · exact failsAs_ok _

theorem buffered_textFails (htok : TokenizerFails analyzer) :
    TextFails PushesBuffered (Buffered analyzer) where
  tag _ _ h := ⟨h.analyzer, h.known, h.propstack, h.sentinel⟩
  bumpWord _ _ h := ⟨h.analyzer, h.known, h.propstack, h.sentinel⟩
  ignoreContent _ _ h := ⟨h.analyzer, h.known, h.propstack, h.sentinel⟩
  characters pd ch h := by
    rw [bufferCharacters]
    split
    · exact h
    · exact ⟨h.analyzer, h.known, h.propstack, h.sentinel⟩
  autoMetaname pd name _ h hok := by
    obtain ⟨config, hextends, hsame, rfl⟩ := autoMetaname_ok hok
    have hmono : ∀ k, HasBuffer pd k →
        HasBuffer { pd with config, metanames := nbNew pd.metanames name } k :=
      fun k h => h.mono hextends fun _ hk => hk
    refine ⟨h.analyzer, fun k hk => ?_, fun t ht => (h.propstack t ht).imp_right (hmono _),
      fun hmem => hmono _ (h.sentinel (hsame ▸ hmem))⟩
    show k ∈ config.properties
    rw [hsame]
    exact h.known k hk
  autoProperty pd name _ h hok := by
    rcases autoProperty_ok hok with rfl | ⟨config, hextends, hadded, hkeys, rfl⟩
    · exact h
    · have hmono : ∀ k, HasBuffer pd k →
          HasBuffer { pd with config, properties := nbNew pd.properties name } k :=
        fun k h => h.mono hextends fun _ hk => mem_nbNew.mpr (.inr hk)
      refine ⟨h.analyzer, fun k hk => ?_, fun t ht => (h.propstack t ht).imp_right (hmono _),
        fun hmem => ?_⟩
      · rcases mem_nbNew.mp hk with rfl | hk
        · exact hadded
        · obtain ⟨prop, hlook⟩ := mem_iff_exists_lookup.mp (h.known k hk)
          exact mem_of_lookup (hextends.properties.retained _ _ hlook)
      by_cases hold : Swish.domStr ∈ pd.config.properties
      · exact hmono _ (h.sentinel hold)
      · have hname : Swish.domStr = name := (hkeys _ hmem).resolve_right hold
        obtain ⟨prop, hlook⟩ := mem_iff_exists_lookup.mp hmem
        have hnull : prop.aliasFor = .null :=
          hextends.properties.introduced _ _ hlook (AList.lookup_eq_none.mpr hold)
        refine ⟨mem_nbNew.mpr (.inl hname), prop, hlook, fun target htarget => ?_⟩
        rw [hnull] at htarget
        cases htarget
  push _ _ _ _ h hpush hok := pushTags_buffered h hpush hok
  pop _ _ _ h hok := popTags_buffered h hok
  pushFails _ _ _ h _ := pushTags_fails htok h
  popFails _ _ h := popTags_fails htok h

theorem flushBuffer_buffered {metaname context : XmlStr} (h : Buffered analyzer pd)
    (hok : flushBuffer pd metaname context = .ok pd') : Buffered analyzer pd' := by
  obtain ⟨metanames, tokens, nwords, rfl⟩ := flushBuffer_ok hok
  exact ⟨h.analyzer, h.known, h.propstack, h.sentinel⟩

theorem flushBuffer_endsWell (htok : TokenizerFails analyzer) (h : Buffered analyzer pd)
    (metaname context : XmlStr) :
    EndsWell (Buffered analyzer) NotMissing (flushBuffer pd metaname context) :=
  ⟨fun _ hok => flushBuffer_buffered h hok, flushBuffer_fails (h.analyzer ▸ htok) _ _⟩

theorem txtParser_endsWell (htok : TokenizerFails analyzer) (h : Buffered analyzer pd)
    (buffer : XmlStr) : EndsWell (Buffered analyzer) NotMissing (txtParser env pd buffer) := by
  have H := buffered_textFails htok
  rw [txtParser]
  split
  · exact endsWell_ok h
  · rename_i text htext
    refine (flushBuffer_endsWell htok (H.characters _ _ ?_) _ _).bind fun pd₁ _ h₁ => ?_
    · exact ⟨h.analyzer, h.known, h.propstack, h.sentinel⟩
    · refine flushBuffer_endsWell htok (H.characters _ _ ?_) _ _
      exact ⟨h₁.analyzer, h₁.known, h₁.propstack, h₁.sentinel⟩

/-- Merging leaves the keys of the buffers as they are. -/
theorem mergeChild_buffered {parent child merged : ParserData} (h : Buffered analyzer parent)
    (hsentinel : Swish.domStr ∈ child.config.properties → Swish.domStr ∈ parent.config.properties)
    (hextends : Extends parent.config child.config) (hok : mergeChild parent child = .ok merged) :
    Buffered analyzer merged := by
  obtain ⟨tokens, -, hok⟩ := bind_ok_iff.mp hok
  cases hok
  have hmono : ∀ k, HasBuffer parent k → HasBuffer { parent with
      config := child.config
      tokens
      docinfo := { parent.docinfo with nwords := parent.docinfo.nwords + child.docinfo.nwords }
      properties := bufferConcat parent.properties child.properties
      metanames := bufferConcat parent.metanames child.metanames } k :=
    fun k h => h.mono hextends fun k hk => by simp [bufferConcat, hk]
  refine ⟨h.analyzer, fun k hk => ?_, fun t ht => (h.propstack t ht).imp_right (hmono _),
    fun hmem => hmono _ (h.sentinel (hsentinel hmem))⟩
  have hk : k ∈ parent.properties := by simpa [bufferConcat] using hk
  obtain ⟨prop, hlook⟩ := mem_iff_exists_lookup.mp (h.known k hk)
  exact mem_of_lookup (hextends.properties.retained _ _ hlook)

theorem buffered_deepRule (htok : TokenizerFails analyzer) :
    DeepRule env
      (fun fuel => EventMeets env (xincludeDeep env fuel) (fun _ _ => True) PushesBuffered)
      (fun _ => True)
      (fun parent child =>
        Swish.domStr ∈ child.config.properties → Swish.domStr ∈ parent.config.properties)
      (Buffered analyzer) NotMissing where
  fails _ h := h
  size _ _ _ h := ⟨h.analyzer, h.known, h.propstack, h.sentinel⟩
  stash _ _ h := ⟨h.analyzer, h.known, h.propstack, h.sentinel⟩
  child pd docinfo h := by
    refine ⟨h.analyzer, fun k hk => mem_nbInit.mp hk, fun t ht => .inl ?_, fun hmem => ?_⟩
    · rw [List.mem_singleton.mp ht]
    · obtain ⟨-, prop, hlook, htarget⟩ := h.sentinel hmem
      exact ⟨mem_nbInit.mpr hmem, prop, hlook,
        fun target ht => mem_nbInit.mpr (h.known target (htarget target ht))⟩
  flush fuel pd e found h _ _ := by
    have h' : Buffered analyzer { pd with stash := some pd.self } :=
      ⟨h.analyzer, h.known, h.propstack, h.sentinel⟩
    refine ⟨fun _ hok => ?_, flushHead_fails (h'.analyzer ▸ htok)⟩
    obtain ⟨top, -, hok⟩ := bind_ok_iff.mp hok
    exact flushBuffer_buffered h' hok
  text _ buffer h _ := txtParser_endsWell htok h buffer
  merge _ _ _ h _ hX hextends hok := mergeChild_buffered h hX hextends hok
  event fuel pd e h hmeets hx := by
    have H := buffered_textFails htok
    refine ⟨fun _ hok =>
      H.toTextSteps.saxEvent (fun uri isText pd' hfound hinclude => ?_) ?_ h hmeets hok,
      H.saxEvent hx ?_ h hmeets⟩
    · exact (hx uri isText hfound).returns pd' hinclude
    · exact fun _ _ hflush => flushBuffer_buffered h hflush
    · exact flushBuffer_fails (h.analyzer ▸ htok) _ _

end Buffered

/-! ## The result -/

section Result

variable {env : SaxEnv} {fuel : Nat} {config : Config} {analyzer : Analyzer} {docinfo : DocInfo}
  {isHtml : Bool} {events : List SaxEvent}

theorem buffered_initParserData
    (hsentinel : Swish.domStr ∈ config.properties →
      HasBuffer (initParserData config analyzer docinfo) Swish.domStr) :
    Buffered analyzer { initParserData config analyzer docinfo with isHtml } := by
  refine ⟨rfl, fun k hk => mem_nbInit.mp hk, fun t ht => .inl ?_, fun hmem => hsentinel hmem⟩
  rw [List.mem_singleton.mp ht]

/-- Where every Property that is pushed has a buffer, `swish_nb_add_str` always finds one, and
every name on the property stack has one at any time. -/
theorem run_buffered (htok : TokenizerFails analyzer)
    (hsentinel : Swish.domStr ∈ config.properties →
      HasBuffer (initParserData config analyzer docinfo) Swish.domStr)
    (hmeets : Steps (saxStep env fuel) (BuffersMet env fuel)
      { initParserData config analyzer docinfo with isHtml } events) :
    (∀ msg, run (saxStep env fuel) { initParserData config analyzer docinfo with isHtml } events ≠
      .error (.notNamed msg)) ∧
    ∀ pd, run (saxStep env fuel) { initParserData config analyzer docinfo with isHtml } events =
        .ok pd →
      ∀ t ∈ pd.propstack.tags, t.baked = Swish.domStr ∨ HasBuffer pd t.baked := by
  have hrun := DeepRule.run (buffered_deepRule htok) (buffered_initParserData hsentinel) hmeets
  refine ⟨fun msg herror => ?_, fun pd hok => (hrun.returns pd hok).propstack⟩
  exact hrun.fails _ herror msg rfl

end Result

theorem tokenizerFails_idle : TokenizerFails .idle := fun _ _ _ _ => failsAs_ok _

/-- `swishdocpath` is the target of an alias and has no buffer. -/
theorem run_misses_buffer :
    ¬ ∀ henv hfuel lcCtype filenames config env fuel analyzer docinfo events msg,
      mergeFiles henv hfuel (configSetDefault lcCtype) filenames = .ok config →
      TokenizerFails analyzer →
      run (saxStep env fuel) (initParserData config analyzer docinfo) events ≠
        .error (.notNamed msg) := by
  intro h
  exact h (.oneFile fooDocpath) 1 (lit "C") [lit "a.xml"] _ .alone 0 .idle docinfoInit
    (oneElement (lit "foo")) (lit "swishdocpath is not a named buffer") rfl tokenizerFails_idle rfl

theorem buffersMet_titledPart : Steps (saxStep .alone 0) (BuffersMet .alone 0)
    (initParserData partConfig .idle docinfoInit) titledPart := by
  refine steps_cons_of_ok ?_ rfl (steps_cons_of_ok trivial rfl (steps_cons_of_ok ?_ rfl
    (steps_cons_of_ok trivial rfl (steps_cons_of_ok endMeets_free rfl
      (steps_cons_of_ok trivial rfl (steps_cons_of_ok ?_ rfl
        (steps_cons_of_ok trivial rfl steps_nil)))))))
  all_goals
    refine eventMeets_of_bare rfl fun swishtag hnorm => ⟨trivial, fun pd hundef => ?_⟩
    cases hnorm
    cases hundef
    intro _ baked hbaked
    cases hbaked
    refine ⟨by decide +kernel, _, rfl, fun target htarget => ?_⟩
    cases htarget

/-- The part and the second title are on the stack, and they have buffers. -/
theorem run_buffered_title : ∃ pd,
    run (saxStep .alone 0) (initParserData partConfig .idle docinfoInit) titledPart = .ok pd ∧
      pd.propstack.tags.map (·.raw) = [Swish.titleMetaname, lit "part", Swish.domStr] ∧
      ∀ t ∈ pd.propstack.tags, t.baked = Swish.domStr ∨ HasBuffer pd t.baked := by
  have hnone : Swish.domStr ∉ partConfig.properties := by decide +kernel
  have hstack : (run (saxStep .alone 0) (initParserData partConfig .idle docinfoInit)
      titledPart).toOption.map (·.propstack.tags.map (·.raw)) =
        some [Swish.titleMetaname, lit "part", Swish.domStr] := by
    decide +kernel
  obtain ⟨pd, hrun, hraw⟩ := exists_ok_of_map hstack
  exact ⟨pd, hrun, hraw, (run_buffered tokenizerFails_idle (fun hmem => absurd hmem hnone)
    buffersMet_titledPart).2 pd hrun⟩

end LibSwish3
