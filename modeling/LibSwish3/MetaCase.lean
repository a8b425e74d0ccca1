import LibSwish3.Content
import LibSwish3.Lib.Related

/-!
# The case of HTML meta names

The name of an HTML `<meta>` element is a tag, and tags are compared in lowercase.  But
`bake_tag` looks the name up as it is written when it decides whether it is undefined, and makes
it a MetaName as it is written; the stacks compare raw names when a tag ends; and the scan for
the attributes takes a value for the name of an attribute.  So a name and its lowercase are not
always handled alike.  Where they are, a document ends up in the same state when the names in it
are replaced by their lowercase.

## Main definitions

* `lowerNames` — the event with the name of its `<meta>` element in lowercase.
* `NamesAlike` — the event does not tell the name from its lowercase.
* `SameOutcome` — how two parses agree.
-/

namespace LibSwish3

open Runs Tables

/-! ## Names in lowercase -/

/-- A string in lowercase, as it is where the locale cannot convert it. -/
def lowerName (loc : Locale) (name : XmlStr) : XmlStr :=
  match strTolower loc name with
  | .ok lowered => lowered
  | .error _ => name

/-- The attribute with its value in lowercase, if it is the name. -/
def lowerAtt (loc : Locale) (att : XmlStr × Option XmlStr) : XmlStr × Option XmlStr :=
  if att.1 = lit "name" then (att.1, att.2.map (lowerName loc)) else att

/-- The event with the name of its `<meta>` element in lowercase. -/
def lowerNames (loc : Locale) : SaxEvent → SaxEvent
  | .startElement name atts =>
    if strTolower loc name = .ok (lit "meta") then
      .startElement name (atts.map fun atts => atts.map (lowerAtt loc))
    else .startElement name atts
  | e => e

/-! ## What a document is indexed as -/

/-- Two states that have collected the same, under the same MetaNames and Properties. -/
structure SameCollected (pd pd' : ParserData) : Prop where
  ignoreContent : pd'.ignoreContent = pd.ignoreContent
  metanames : ∀ name, name ∈ pd'.config.metanames ↔ name ∈ pd.config.metanames
  properties : ∀ name, name ∈ pd'.config.properties ↔ name ∈ pd.config.properties
  metanameBuffers : pd'.metanames = pd.metanames
  propertyBuffers : pd'.properties = pd.properties
  tokens : pd'.tokens = pd.tokens

/-- Two ways to stop: the same, or two croaks with messages of their own. -/
def SameHalt (x y : Halt) : Prop := x = y ∨ ∃ msg msg', x = .croak msg ∧ y = .croak msg'

/-- Two parses that both stop, or have collected the same. -/
def SameOutcome (x y : Swish ParserData) : Prop := Related SameCollected SameHalt x y

/-! ## Where a name and its lowercase are handled alike -/

/-- The scan does not take the value of a name attribute for the name of an attribute once it is
in lowercase.  It ends at the first attribute without a value. -/
def ScanAlike (loc : Locale) (atts : Atts) : Prop :=
  ∀ name, (lit "name", some name) ∈ atts.takeWhile (·.2.isSome) →
    lowerName loc name = lit "name" ∨ lowerName loc name = lit "content" →
      lowerName loc name = name

/-- A name that is not undefined. -/
def NameDefined (pd : ParserData) (name : XmlStr) : Prop :=
  name ∈ pd.config.metanames ∨ name ∈ pd.config.tagAliases

/-- `undef_metas` does the same for two names. -/
def UndefAlike (pd : ParserData) (metaname lowered : XmlStr) (metacontent : Option XmlStr) :
    Prop :=
  match pd.config.flags.undefMetas with
  | .error => NameDefined pd metaname ↔ NameDefined pd lowered
  | .ignore => metacontent = none ∨ (NameDefined pd metaname ↔ NameDefined pd lowered)
  | .auto | .autoall => NameDefined pd metaname ∧ NameDefined pd lowered
  | .index => True

/-- The end of a tag pops the same from a stack by two names: what its start has pushed, or
nothing in either case. -/
def PopAlike {α : Type} (hash : HashTable α) (stack : TagStack) (baked context : XmlStr)
    (metaname lowered : XmlStr) : Prop :=
  isKey hash (some baked) context = true ∨
    ∀ top, stack.head = .ok top → (top.raw = metaname ↔ top.raw = lowered)

/-- Two names of a `<meta>` element are handled alike. -/
def MetaAlike (pd : ParserData) (metaname lowered : XmlStr) (metacontent : Option XmlStr) : Prop :=
  metaname = lowered ∨ UndefAlike pd metaname lowered metacontent ∧
    (metacontent ≠ none → ∀ baked context, baked = aliasTag pd lowered →
      context = flattenTagStack baked pd.domstack Swish.dot →
        PopAlike pd.config.properties pd.propstack baked context metaname lowered ∧
          PopAlike pd.config.metanames pd.metastack baked context metaname lowered)

/-- An event does not tell the name of a `<meta>` element from its lowercase. -/
def NamesAlike (env : SaxEnv) (pd : ParserData) : SaxEvent → Prop
  | .startElement name atts => strTolower env.loc name = .ok (lit "meta") →
    ScanAlike env.loc (atts.getD []) ∧
      ∀ metaname lowered metacontent,
        metaAtts (lit "meta") atts = (some metaname, metacontent) →
        metaAtts (lit "meta") (atts.map fun atts => atts.map (lowerAtt env.loc)) =
          (some lowered, metacontent) →
        MetaAlike pd metaname lowered metacontent
  | _ => True

/-! ## The stacks of a nested tag -/

section Stacks

variable {name lowered : XmlStr}

/-- What a tag that is opened by its name, and by its lowercase, leaves of a stack: it is on both
by its own name, or on neither, and then no other entry goes by one of the names only. -/
inductive StackAlike (name lowered : XmlStr) : TagStack → TagStack → Prop
  | pushed (stack : TagStack) (baked : XmlStr) (join : XmlChar) :
      StackAlike name lowered (stack.push name baked join) (stack.push lowered baked join)
  | kept (stack : TagStack)
      (h : ∀ top, stack.head = .ok top → (top.raw = name ↔ top.raw = lowered)) :
      StackAlike name lowered stack stack

/-- Two popped entries that differ in the raw name only. -/
def SameEntry : Option Tag → Option Tag → Prop :=
  Option.Rel fun st st' => st'.baked = st.baked ∧ st'.context = st.context

theorem SameEntry.refl (st : Option Tag) : SameEntry st st := by
  cases st with
  | none => exact .none
  | some st => exact .some ⟨rfl, rfl⟩

theorem pop_push (name lowered : XmlStr) (stack : TagStack) (baked : XmlStr) (join : XmlChar) :
    SameEntry (stack.push name baked join).pop.1 (stack.push lowered baked join).pop.1 ∧
      (stack.push name baked join).pop.2 = (stack.push lowered baked join).pop.2 := by
  have hcount : (stack.push lowered baked join).count = (stack.push name baked join).count := rfl
  simp only [TagStack.pop, TagStack.push_tags, hcount]
  by_cases hone : 1 < (stack.push name baked join).count
  · rw [if_pos hone, if_pos hone]
    exact ⟨.some ⟨rfl, rfl⟩, rfl⟩
  · rw [if_neg hone, if_neg hone]
    exact ⟨.some ⟨rfl, rfl⟩, rfl⟩

theorem StackAlike.popOnMatch {stack stack' : TagStack} (h : StackAlike name lowered stack stack') :
    Related (fun s s' => SameEntry s.1 s'.1 ∧ s.2 = s'.2) (· = ·) (stack.popOnMatch name)
      (stack'.popOnMatch lowered) := by
  cases h with
  | pushed stack baked join =>
      simp only [TagStack.popOnMatch, TagStack.head, TagStack.push_tags, ok_bind, pure_eq_ok,
        if_true]
      exact pop_push name lowered stack baked join
  | kept stack h =>
      refine (related_self stack.head).bind ?_
      rintro top _ htop - rfl
      simp only [pure_eq_ok, related_ok_iff, h top htop]
      exact ⟨.refl _, trivial⟩

/-- The states that opening a tag leaves: they differ in the raw name of the tag only. -/
inductive OpenedAlike (name lowered : XmlStr) (pd : ParserData) : ParserData → Prop
  | mk (stack : TagStack) (baked : XmlStr) (propstack metastack : TagStack)
      (hdom : pd.domstack = stack.push name baked Swish.dot)
      (hprop : StackAlike name lowered pd.propstack propstack)
      (hmeta : StackAlike name lowered pd.metastack metastack) :
      OpenedAlike name lowered pd
        { pd with domstack := stack.push lowered baked Swish.dot, propstack, metastack }

variable {pd : ParserData} {baked context : XmlStr}

/-- The property buffer goes its way whatever the other stacks are. -/
theorem addStackToPropBuf_related (pd : ParserData) (domstack metastack : TagStack)
    (ended : Option XmlStr) :
    Related (fun a b => a.domstack = pd.domstack ∧ a.metastack = pd.metastack ∧
        b = { a with domstack, metastack }) (· = ·)
      (addStackToPropBuf pd ended) (addStackToPropBuf { pd with domstack, metastack } ended) := by
  refine (related_self (addToProperty pd ended)).bind ?_
  rintro ⟨s, cleanwsp⟩ _ - - rfl
  refine (related_self (run (propStackStep cleanwsp) s pd.propstack.tags)).bind ?_
  rintro ⟨properties, propBuf⟩ _ - - rfl
  exact ⟨rfl, rfl, rfl⟩

theorem tokenizeBuffer_related (pd : ParserData) (domstack propstack : TagStack)
    (metaname context : XmlStr) :
    Related (fun a b => a.domstack = pd.domstack ∧ b = { a with domstack, propstack }) (· = ·)
      (tokenizeBuffer pd metaname context)
      (tokenizeBuffer { pd with domstack, propstack } metaname context) := by
  unfold tokenizeBuffer
  by_cases hidle : (!pd.analyzer.tokenize || pd.metaBuf.isEmpty) = true
  · rw [if_pos hidle, if_pos hidle]
    exact ⟨rfl, rfl⟩
  · rw [if_neg hidle, if_neg hidle]
    refine (related_self (pd.analyzer.tokenizer pd.tokens (cstr pd.metaBuf)
      (pd.config.metanames.lookup metaname) context)).bind ?_
    rintro ⟨tokens, n⟩ _ - - rfl
    exact ⟨rfl, rfl⟩

/-- The meta buffer goes its way whatever the other stacks are. -/
theorem flushBuffer_related (pd : ParserData) (domstack propstack : TagStack)
    (metaname context : XmlStr) :
    Related (fun a b => a.domstack = pd.domstack ∧ b = { a with domstack, propstack }) (· = ·)
      (flushBuffer pd metaname context)
      (flushBuffer { pd with domstack, propstack } metaname context) := by
  refine (related_self (metanameStoredAs pd.config metaname)).bind ?_
  rintro storedAs _ - - rfl
  refine (related_self (nbAddStr pd.metanames storedAs pd.metaBuf Swish.tokenposBumper false
    true)).bind ?_
  rintro metanames _ - - rfl
  refine (related_self (cascadeMetas pd storedAs metanames)).bind ?_
  rintro metanames _ - - rfl
  refine (tokenizeBuffer_related { pd with metanames } domstack propstack storedAs
    context).bind ?_
  rintro a b - - ⟨hdom, rfl⟩
  exact ⟨hdom, rfl⟩

theorem pushProperty_alike {domstack domstack' : TagStack}
    (hpop : PopAlike pd.config.properties pd.propstack baked context name lowered) :
    Related (fun a b => a.domstack = domstack ∧ a.metastack = pd.metastack ∧
        a.config = pd.config ∧ StackAlike name lowered a.propstack b.propstack ∧
        b = { a with domstack := domstack', propstack := b.propstack }) (· = ·)
      (pushProperty { pd with domstack } name (some baked) context)
      (pushProperty { pd with domstack := domstack' } lowered (some baked) context) := by
  unfold pushProperty
  by_cases hkey : isKey pd.config.properties (some baked) context = true
  · rw [if_pos hkey, if_pos hkey]
    refine (addStackToPropBuf_related { pd with domstack } domstack' pd.metastack none).bind ?_
    rintro a b hadd - ⟨hdom, hmeta, rfl⟩
    obtain ⟨properties, rfl⟩ := addStackToPropBuf_ok hadd
    refine (related_self (pushedName pd.config (some baked) context)).bind ?_
    rintro pushed _ - - rfl
    exact ⟨rfl, rfl, rfl, .pushed _ _ _, rfl⟩
  · rw [if_neg hkey, if_neg hkey]
    exact ⟨rfl, rfl, rfl, .kept _ (hpop.resolve_left hkey), rfl⟩

theorem pushMetaname_alike {domstack propstack : TagStack}
    (hpop : PopAlike pd.config.metanames pd.metastack baked context name lowered) :
    Related (fun a b => a.domstack = pd.domstack ∧ a.propstack = pd.propstack ∧
        StackAlike name lowered a.metastack b.metastack ∧
        b = { a with domstack, propstack, metastack := b.metastack }) (· = ·)
      (pushMetaname pd name (some baked) context)
      (pushMetaname { pd with domstack, propstack } lowered (some baked) context) := by
  unfold pushMetaname
  by_cases hkey : isKey pd.config.metanames (some baked) context = true
  · rw [if_pos hkey, if_pos hkey]
    have hflush : Related (fun a b => a.domstack = pd.domstack ∧ b = { a with domstack, propstack })
        (· = ·) (flushHead pd) (flushHead { pd with domstack, propstack }) := by
      refine (related_self pd.metastack.head).bind ?_
      rintro top _ - - rfl
      exact flushBuffer_related pd domstack propstack top.baked top.context
    refine hflush.bind ?_
    rintro a b hok - ⟨-, rfl⟩
    obtain ⟨top, -, hok⟩ := bind_ok_iff.mp hok
    obtain ⟨metanames, tokens, nwords, rfl⟩ := flushBuffer_ok hok
    refine (related_self (pushedName pd.config (some baked) context)).bind ?_
    rintro pushed _ - - rfl
    exact ⟨rfl, rfl, .pushed _ _ _, rfl⟩
  · rw [if_neg hkey, if_neg hkey]
    exact ⟨rfl, rfl, .kept _ (hpop.resolve_left hkey), rfl⟩

/-- Opening a tag by its name and by its lowercase. -/
theorem pushTags_alike (hcontext : context = flattenTagStack baked pd.domstack Swish.dot)
    (hprop : PopAlike pd.config.properties pd.propstack baked context name lowered)
    (hmeta : PopAlike pd.config.metanames pd.metastack baked context name lowered) :
    Related (OpenedAlike name lowered) (· = ·) (pushTags pd name (some baked))
      (pushTags pd lowered (some baked)) := by
  have hopen : ∀ raw, pushTags pd raw (some baked) = (do
      let pd ← pushProperty { pd with domstack := pd.domstack.push raw baked Swish.dot } raw
        (some baked) context
      pushMetaname pd raw (some baked) context) := by
    intro raw
    rw [hcontext]
    rfl
  rw [hopen name, hopen lowered]
  refine (pushProperty_alike hprop).bind ?_
  rintro a b - - ⟨hdom, hmetastack, hconfig, hpropstack, hb⟩
  rw [hb]
  have hmeta' : PopAlike a.config.metanames a.metastack baked context name lowered := by
    rw [hconfig, hmetastack]
    exact hmeta
  refine (pushMetaname_alike hmeta').mono ?_ fun _ _ h => h
  rintro c d - ⟨hdom', hprop', hmetastack', hd⟩
  rw [hd]
  exact .mk pd.domstack baked _ _ (hdom'.trans hdom) (hprop' ▸ hpropstack) hmetastack'

theorem popProperty_alike {domstack propstack metastack : TagStack}
    (h : StackAlike name lowered pd.propstack propstack) :
    Related (fun a b => a.domstack = pd.domstack ∧ a.metastack = pd.metastack ∧
        b = { a with domstack, metastack }) (· = ·)
      (popProperty pd name)
      (popProperty { pd with domstack, propstack, metastack } lowered) := by
  refine h.popOnMatch.bind ?_
  rintro ⟨st, popped⟩ ⟨st', popped'⟩ - - ⟨hentry, rfl⟩
  cases hentry with
  | none => exact ⟨rfl, rfl, rfl⟩
  | some hsame =>
      simp only [hsame.1]
      exact addStackToPropBuf_related { pd with propstack := popped } domstack metastack _

theorem popMetaname_alike {domstack metastack : TagStack}
    (h : StackAlike name lowered pd.metastack metastack) :
    Related (fun a b => a.domstack = pd.domstack ∧ b = { a with domstack }) (· = ·)
      (popMetaname pd name) (popMetaname { pd with domstack, metastack } lowered) := by
  refine h.popOnMatch.bind ?_
  rintro ⟨st, popped⟩ ⟨st', popped'⟩ - - ⟨hentry, rfl⟩
  cases hentry with
  | none => exact ⟨rfl, rfl⟩
  | some hsame =>
      simp only [hsame.1, hsame.2]
      refine (flushBuffer_related { pd with metastack := popped } domstack pd.propstack _
        _).mono ?_ fun _ _ h => h
      rintro a b hok ⟨hdom, rfl⟩
      obtain ⟨metanames, tokens, nwords, rfl⟩ := flushBuffer_ok hok
      exact ⟨hdom, rfl⟩

/-- Closing it again. -/
theorem popTags_alike {pd' : ParserData} (h : OpenedAlike name lowered pd pd') :
    Related (· = ·) (· = ·) (popTags pd name) (popTags pd' lowered) := by
  obtain ⟨stack, baked, propstack, metastack, hdom, hprop, hmeta⟩ := h
  refine (popProperty_alike hprop).bind ?_
  rintro a _ - - ⟨hdoma, hmetaa, rfl⟩
  have hmeta' : StackAlike name lowered a.metastack metastack := hmetaa ▸ hmeta
  refine (popMetaname_alike hmeta').bind ?_
  rintro b _ - - ⟨hdomb, rfl⟩
  rw [hdoma, hdom] at hdomb
  simp only [hdomb]
  obtain ⟨hentry, hrest⟩ := pop_push name lowered stack baked Swish.dot
  cases hpop : (stack.push name baked Swish.dot).pop with
  | mk st popped =>
      cases hpop' : (stack.push lowered baked Swish.dot).pop with
      | mk st' popped' =>
          rw [hpop, hpop'] at hentry hrest
          cases hentry with
          | none => rfl
          | some _ => exact congrArg (fun domstack => { b with domstack }) hrest

end Stacks

/-! ## A nested tag -/

section Nested

variable {env : TagEnv} {pd : ParserData} {name lowered content : XmlStr}

theorem bakeTagPlain_html (hhtml : pd.isHtml = true)
    (hname : strTolower env.loc name = .ok lowered) :
    bakeTagPlain env pd name none =
      .ok (aliasTag (htmlBump env pd lowered) lowered, htmlBump env pd lowered) := by
  simp only [bakeTagPlain, normalizeTag, plainTag, hname, hhtml, ok_bind, pure_eq_ok, if_true]

theorem openTagPlain_alike (hhtml : pd.isHtml = true)
    (hname : strTolower env.loc name = .ok lowered)
    (hlowered : strTolower env.loc lowered = .ok lowered)
    (hpop : ∀ baked context, baked = aliasTag pd lowered →
      context = flattenTagStack baked pd.domstack Swish.dot →
        PopAlike pd.config.properties pd.propstack baked context name lowered ∧
          PopAlike pd.config.metanames pd.metastack baked context name lowered) :
    Related (OpenedAlike name lowered) (· = ·) (openTagPlain env pd name none)
      (openTagPlain env pd lowered none) := by
  refine (related_self (freeTag pd)).bind ?_
  rintro pd₁ _ hfree - rfl
  have hpd₁ := freeTag_ok hfree
  have hhtml₁ : pd₁.isHtml = true := by
    rw [hpd₁]
    exact hhtml
  rw [bakeTagPlain_html hhtml₁ hname, bakeTagPlain_html hhtml₁ hlowered]
  obtain ⟨bumpWord, hbump⟩ := htmlBump_eq env pd₁ lowered
  rw [hbump, hpd₁]
  obtain ⟨hprop, hmeta⟩ := hpop _ _ rfl rfl
  exact pushTags_alike rfl hprop hmeta

theorem OpenedAlike.tag {pd' : ParserData} (h : OpenedAlike name lowered pd pd')
    (tag : CPtr XmlStr) : OpenedAlike name lowered { pd with tag } { pd' with tag } := by
  obtain ⟨stack, baked, propstack, metastack, hdom, hprop, hmeta⟩ := h
  exact .mk stack baked propstack metastack hdom hprop hmeta

theorem OpenedAlike.bufferCharacters {pd' : ParserData} (h : OpenedAlike name lowered pd pd')
    (ch : XmlStr) :
    OpenedAlike name lowered (bufferCharacters pd ch) (bufferCharacters pd' ch) := by
  obtain ⟨stack, baked, propstack, metastack, hdom, hprop, hmeta⟩ := h
  simp only [LibSwish3.bufferCharacters]
  split
  · exact .mk stack baked propstack metastack hdom hprop hmeta
  · exact .mk stack baked propstack metastack hdom hprop hmeta

theorem OpenedAlike.htmlBump (env : TagEnv) {pd' : ParserData}
    (h : OpenedAlike name lowered pd pd') (swishtag : XmlStr) :
    OpenedAlike name lowered (htmlBump env pd swishtag) (htmlBump env pd' swishtag) := by
  obtain ⟨stack, baked, propstack, metastack, hdom, hprop, hmeta⟩ := h
  simp only [LibSwish3.htmlBump]
  split
  · exact .mk stack baked propstack metastack hdom hprop hmeta
  · split
    · exact .mk stack baked propstack metastack hdom hprop hmeta
    · exact .mk stack baked propstack metastack hdom hprop hmeta

theorem OpenedAlike.aliasTag {pd' : ParserData} (h : OpenedAlike name lowered pd pd')
    (swishtag : XmlStr) : aliasTag pd' swishtag = aliasTag pd swishtag := by
  obtain ⟨stack, baked, propstack, metastack, hdom, -, -⟩ := h
  have hflat : flattenTagStack swishtag pd.domstack Swish.dot =
      flattenTagStack swishtag (stack.push lowered baked Swish.dot) Swish.dot := by
    rw [hdom]
    rfl
  simp only [LibSwish3.aliasTag]
  rw [hflat]

theorem closeTag_alike {pd' : ParserData} (hhtml : pd.isHtml = true)
    (hname : strTolower env.loc name = .ok lowered)
    (hlowered : strTolower env.loc lowered = .ok lowered) (h : OpenedAlike name lowered pd pd') :
    Related (· = ·) (· = ·) (closeTag env pd name none) (closeTag env pd' lowered none) := by
  have hhtml' : pd'.isHtml = true := by
    cases h
    exact hhtml
  have hsame : pd'.tag = pd.tag := by
    cases h
    rfl
  have hfree : Related (OpenedAlike name lowered) (· = ·) (freeTag pd) (freeTag pd') := by
    rw [freeTag, freeTag, hsame]
    exact (related_self pd.tag.read).bind fun _ _ _ _ _ => h.tag .null
  refine hfree.bind ?_
  rintro pd₁ pd₁' hok hok' halike
  have hhtml₁ : pd₁.isHtml = true := by
    rw [freeTag_ok hok]
    exact hhtml
  have hhtml₁' : pd₁'.isHtml = true := by
    rw [freeTag_ok hok']
    exact hhtml'
  have hbumped := halike.htmlBump env lowered
  rw [bakeTagPlain_html hhtml₁ hname, bakeTagPlain_html hhtml₁' hlowered,
    hbumped.aliasTag lowered]
  exact popTags_alike (hbumped.tag _)

/-- A tag that is opened and closed by its name and by its lowercase. -/
theorem nestedTag_alike (hhtml : pd.isHtml = true)
    (hname : strTolower env.loc name = .ok lowered)
    (hlowered : strTolower env.loc lowered = .ok lowered)
    (hpop : ∀ baked context, baked = aliasTag pd lowered →
      context = flattenTagStack baked pd.domstack Swish.dot →
        PopAlike pd.config.properties pd.propstack baked context name lowered ∧
          PopAlike pd.config.metanames pd.metastack baked context name lowered) :
    Related (· = ·) (· = ·) (nestedTag env pd name content none)
      (nestedTag env pd lowered content none) := by
  have hopen : Related (OpenedAlike name lowered) (· = ·)
      (openTagPlain env { pd with bumpWord := true } name none)
      (openTagPlain env { pd with bumpWord := true } lowered none) :=
    openTagPlain_alike hhtml hname hlowered hpop
  refine hopen.bind ?_
  rintro pd₁ pd₁' hok - halike
  have hhtml₁ : pd₁.isHtml = true := (openTagPlain_grows hok).2.trans hhtml
  have hbuffered : (bufferCharacters pd₁ content).isHtml = true :=
    (bufferCharacters_calm pd₁ content).isHtml.trans hhtml₁
  refine (closeTag_alike hbuffered hname hlowered (halike.bufferCharacters content)).bind ?_
  rintro pd₂ _ - - rfl
  exact rfl

/-! ## `<meta>` elements -/

theorem undefHtmlMeta_of_defined (h : NameDefined pd name) : undefHtmlMeta pd name = .ok pd :=
  if_pos h

theorem undefHtmlMeta_ignored (h : ¬ NameDefined pd name)
    (hmode : pd.config.flags.undefMetas = .ignore) :
    undefHtmlMeta pd name = .ok { pd with ignoreContent := pd.ignoreContent + 1 } := by
  unfold NameDefined at h
  rw [undefHtmlMeta, if_neg h, hmode]

theorem undefHtmlMeta_croaks (h : ¬ NameDefined pd name)
    (hmode : pd.config.flags.undefMetas = .error) :
    ∃ msg, undefHtmlMeta pd name = .error (.croak msg) := by
  unfold NameDefined at h
  rw [undefHtmlMeta, if_neg h, hmode]
  exact ⟨_, rfl⟩

theorem undefHtmlMeta_indexed (hmode : pd.config.flags.undefMetas = .index) :
    undefHtmlMeta pd name = .ok pd := by
  rw [undefHtmlMeta, hmode]
  split <;> rfl

/-- `undef_metas` only touches `ignore_content` where it does not tell the names apart. -/
theorem undefHtmlMeta_alike {metacontent : Option XmlStr}
    (h : UndefAlike pd name lowered metacontent) :
    Related (fun a b => ∃ n n', a = { pd with ignoreContent := n } ∧
        b = { pd with ignoreContent := n' } ∧ (metacontent ≠ none → n = n')) SameHalt
      (undefHtmlMeta pd name) (undefHtmlMeta pd lowered) := by
  unfold UndefAlike at h
  split at h
  · rename_i hmode
    by_cases hname : NameDefined pd name
    · rw [undefHtmlMeta_of_defined hname, undefHtmlMeta_of_defined (h.mp hname)]
      exact ⟨_, _, rfl, rfl, fun _ => rfl⟩
    · obtain ⟨msg, hmsg⟩ := undefHtmlMeta_croaks hname hmode
      obtain ⟨msg', hmsg'⟩ := undefHtmlMeta_croaks (fun hlow => hname (h.mpr hlow)) hmode
      rw [hmsg, hmsg']
      exact .inr ⟨msg, msg', rfl, rfl⟩
  · rename_i hmode
    by_cases hname : NameDefined pd name <;> by_cases hlow : NameDefined pd lowered
    · rw [undefHtmlMeta_of_defined hname, undefHtmlMeta_of_defined hlow]
      exact ⟨_, _, rfl, rfl, fun _ => rfl⟩
    · rw [undefHtmlMeta_of_defined hname, undefHtmlMeta_ignored hlow hmode]
      exact ⟨_, _, rfl, rfl, fun hsome => absurd (h.resolve_left hsome) (by simp [hname, hlow])⟩
    · rw [undefHtmlMeta_ignored hname hmode, undefHtmlMeta_of_defined hlow]
      exact ⟨_, _, rfl, rfl, fun hsome => absurd (h.resolve_left hsome) (by simp [hname, hlow])⟩
    · rw [undefHtmlMeta_ignored hname hmode, undefHtmlMeta_ignored hlow hmode]
      exact ⟨_, _, rfl, rfl, fun _ => rfl⟩
  · rw [undefHtmlMeta_of_defined h.1, undefHtmlMeta_of_defined h.2]
    exact ⟨_, _, rfl, rfl, fun _ => rfl⟩
  · rw [undefHtmlMeta_of_defined h.1, undefHtmlMeta_of_defined h.2]
    exact ⟨_, _, rfl, rfl, fun _ => rfl⟩
  · rename_i hmode
    rw [undefHtmlMeta_indexed hmode, undefHtmlMeta_indexed hmode]
    exact ⟨_, _, rfl, rfl, fun _ => rfl⟩

theorem bakeHtmlMeta_alike (hhtml : pd.isHtml = true)
    (hname : strTolower env.loc name = .ok lowered)
    (hlowered : strTolower env.loc lowered = .ok lowered) {metacontent : Option XmlStr}
    (h : MetaAlike pd name lowered metacontent) :
    Related (· = ·) SameHalt (bakeHtmlMeta env pd name metacontent none)
      (bakeHtmlMeta env pd lowered metacontent none) := by
  rcases h with rfl | ⟨hundef, hpop⟩
  · exact related_of_eq (fun _ => rfl) (fun _ => .inl rfl) rfl
  · refine (undefHtmlMeta_alike hundef).bind ?_
    rintro _ _ - - ⟨n, n', rfl, rfl, hsame⟩
    cases metacontent with
    | none => exact rfl
    | some content =>
        obtain rfl := hsame (by simp)
        have hnested : Related (· = ·) (· = ·)
            (nestedTag env { pd with ignoreContent := n } name content none)
            (nestedTag env { pd with ignoreContent := n } lowered content none) :=
          nestedTag_alike hhtml hname hlowered (hpop (by simp))
        refine (hnested.mono (fun _ _ _ heq => heq) fun _ _ heq => .inl heq).bind ?_
        rintro pd₁ _ - - rfl
        exact rfl

end Nested

/-! ## The scan for the attributes -/

section Scan

variable {loc : Locale} {atts : Atts}

/-- A string, or its lowercase. -/
def UpToCase (loc : Locale) (o o' : Option XmlStr) : Prop := o' = o ∨ o' = o.map (lowerName loc)

theorem head_flatAtts_lower :
    (flatAtts (atts.map (lowerAtt loc))).head? = (flatAtts atts).head? := by
  cases atts with
  | nil => rfl
  | cons att atts =>
      obtain ⟨name, value⟩ := att
      have hname : (lowerAtt loc (name, value)).1 = name := by
        rw [lowerAtt]
        split <;> rfl
      have hhead : ∀ (att : XmlStr × Option XmlStr) (atts : Atts),
          (flatAtts (att :: atts)).head? = some att.1 := by
        rintro ⟨_, _ | _⟩ atts <;> rfl
      rw [List.map_cons, hhead, hhead, hname]

theorem lowerName_of_eq {name : XmlStr} (h : name = lit "name" ∨ name = lit "content") :
    lowerName loc name = name := by
  rcases h with rfl | rfl <;> rfl

theorem ScanAlike.tail {name value : XmlStr} (h : ScanAlike loc ((name, some value) :: atts)) :
    ScanAlike loc atts := by
  intro v hv
  exact h v (by simp [hv])

/-- One string of the scan: what is behind a name, or behind a content. -/
def scanOne (found : Option XmlStr × Option XmlStr) (att : XmlStr) (next : Option XmlStr) :
    Option XmlStr × Option XmlStr :=
  if att = lit "name" then (next, found.2)
  else if att = lit "content" then (found.1, next)
  else found

theorem scanMeta_cons (found : Option XmlStr × Option XmlStr) (att : XmlStr) (rest : List XmlStr) :
    scanMeta found (att :: rest) = scanMeta (scanOne found att rest.head?) rest := by
  simp only [scanMeta, scanOne]
  split
  · rfl
  · split <;> rfl

theorem scanOne_of_ne {found : Option XmlStr × Option XmlStr} {att : XmlStr}
    {next : Option XmlStr} (h : ¬ (att = lit "name" ∨ att = lit "content")) :
    scanOne found att next = found := by
  rw [scanOne, if_neg fun heq => h (.inl heq), if_neg fun heq => h (.inr heq)]

/-- What has been found: the same name up to case, and the same content. -/
def FoundAlike (loc : Locale) (found found' : Option XmlStr × Option XmlStr) : Prop :=
  UpToCase loc found.1 found'.1 ∧ found'.2 = found.2

theorem FoundAlike.scanOne {found found' : Option XmlStr × Option XmlStr}
    (h : FoundAlike loc found found') {att : XmlStr} {next next' : Option XmlStr}
    (hname : att = lit "name" → UpToCase loc next next')
    (hcontent : att = lit "content" → next' = next) :
    FoundAlike loc (scanOne found att next) (scanOne found' att next') := by
  unfold LibSwish3.scanOne
  split
  · rename_i heq
    exact ⟨hname heq, h.2⟩
  · split
    · rename_i heq
      exact ⟨h.1, hcontent heq⟩
    · exact h

/-- The scan finds the same name up to case, and the same content. -/
theorem scanMeta_lower {found found' : Option XmlStr × Option XmlStr} (h : ScanAlike loc atts)
    (hfound : FoundAlike loc found found') :
    FoundAlike loc (scanMeta found (flatAtts atts))
      (scanMeta found' (flatAtts (atts.map (lowerAtt loc)))) := by
  induction atts generalizing found found' with
  | nil => exact hfound
  | cons att atts ih =>
      obtain ⟨key, value⟩ := att
      cases value with
      | none =>
          have hlower : lowerAtt loc (key, none) = (key, none) := by
            rw [lowerAtt]
            split <;> rfl
          rw [List.map_cons, hlower]
          exact hfound.scanOne (fun _ => .inl rfl) fun _ => rfl
      | some value =>
          have hsame : ∀ {found found'}, FoundAlike loc found found' →
              FoundAlike loc (scanOne found value (flatAtts atts).head?)
                (scanOne found' value (flatAtts (atts.map (lowerAtt loc))).head?) := by
            intro found found' hfound
            rw [head_flatAtts_lower]
            exact hfound.scanOne (fun _ => .inl rfl) fun _ => rfl
          by_cases hkey : key = lit "name"
          · have hlower : lowerAtt loc (key, some value) = (key, some (lowerName loc value)) :=
              if_pos hkey
            have hone : FoundAlike loc (scanOne found key (some value))
                (scanOne found' key (some (lowerName loc value))) := by
              refine hfound.scanOne (fun _ => .inr rfl) fun hcontent => ?_
              exact absurd (hkey.symm.trans hcontent) (by decide)
            simp only [List.map_cons, hlower, flatAtts, scanMeta_cons, List.head?_cons]
            refine ih h.tail ?_
            by_cases hfixed : lowerName loc value = value
            · rw [hfixed] at hone ⊢
              exact hsame hone
            · have hvalue : ¬ (value = lit "name" ∨ value = lit "content") :=
                fun heq => hfixed (lowerName_of_eq heq)
              have hlowered : ¬ (lowerName loc value = lit "name" ∨
                  lowerName loc value = lit "content") :=
                fun heq => hfixed (h value (by simp [hkey]) heq)
              rw [scanOne_of_ne hvalue, scanOne_of_ne hlowered]
              exact hone
          · have hlower : lowerAtt loc (key, some value) = (key, some value) := if_neg hkey
            simp only [List.map_cons, hlower, flatAtts, scanMeta_cons, List.head?_cons]
            exact ih h.tail (hsame (hfound.scanOne (fun _ => .inl rfl) fun _ => rfl))

theorem metaAtts_lower {atts : Option Atts} (h : ScanAlike loc (atts.getD [])) :
    FoundAlike loc (metaAtts (lit "meta") atts)
      (metaAtts (lit "meta") (atts.map fun atts => atts.map (lowerAtt loc))) := by
  have hstart : FoundAlike loc (none, none) (none, none) := ⟨.inl rfl, rfl⟩
  have hfound := scanMeta_lower h hstart
  cases atts with
  | none => exact hfound
  | some atts => exact hfound

/-- The lowercase of a string is lowered to itself. -/
theorem lowerName_cases (ha : loc.AsciiAgrees) (hl : loc.Lowers) (name : XmlStr) :
    lowerName loc name = name ∨ strTolower loc name = .ok (lowerName loc name) ∧
      strTolower loc (lowerName loc name) = .ok (lowerName loc name) := by
  rw [lowerName]
  cases hlower : strTolower loc name with
  | error x => exact .inl rfl
  | ok lowered => exact .inr ⟨rfl, strTolower_idem ha hl hlower⟩

end Scan

/-! ## Events -/

section Events

variable {env : SaxEnv} {pd : ParserData} {name : XmlStr} {atts : Option Atts}

theorem related_same {α : Type} (x : Swish α) : Related (· = ·) SameHalt x x :=
  related_of_eq (fun _ => rfl) (fun _ => .inl rfl) rfl

/-- Baking a `<meta>` tag with its name as written and in lowercase. -/
theorem bakeTag_alike (ha : env.loc.AsciiAgrees) (hl : env.loc.Lowers) (hhtml : pd.isHtml = true)
    (hmeta : strTolower env.loc name = .ok (lit "meta"))
    (h : NamesAlike env pd (.startElement name atts)) :
    Related (· = ·) SameHalt (bakeTag env.toTagEnv pd name atts none)
      (bakeTag env.toTagEnv pd name (atts.map fun atts => atts.map (lowerAtt env.loc)) none) := by
  obtain ⟨hscan, halike⟩ := h hmeta
  have hfound := metaAtts_lower hscan
  simp only [bakeTag, normalizeTag, hmeta, ok_bind, pure_eq_ok, hhtml, if_true]
  cases hatts : metaAtts (lit "meta") atts with
  | mk metaname metacontent =>
      cases hatts' : metaAtts (lit "meta") (atts.map fun atts => atts.map (lowerAtt env.loc)) with
      | mk metaname' metacontent' =>
          rw [hatts, hatts'] at hfound
          obtain ⟨hname, hcontent⟩ := hfound
          simp only at hname hcontent
          subst hcontent
          cases metaname with
          | none =>
              obtain rfl : metaname' = none := by simpa [UpToCase] using hname
              exact related_same _
          | some metaname =>
              have hbaked : ∀ lowered, metaname' = some lowered →
                  Related (· = ·) SameHalt
                    (bakeHtmlMeta env.toTagEnv (htmlBump env.toTagEnv pd (lit "meta")) metaname
                      metacontent' none)
                    (bakeHtmlMeta env.toTagEnv (htmlBump env.toTagEnv pd (lit "meta")) lowered
                      metacontent' none) := by
                rintro lowered rfl
                have hcases : lowered = metaname ∨ lowered = lowerName env.loc metaname := by
                  simpa [UpToCase] using hname
                obtain ⟨bumpWord, hbump⟩ := htmlBump_eq env.toTagEnv pd (lit "meta")
                rcases hcases with rfl | rfl
                · exact related_same _
                · rcases lowerName_cases ha hl metaname with hsame | ⟨hlower, hlowered⟩
                  · rw [hsame]
                    exact related_same _
                  · have hbumped : MetaAlike { pd with bumpWord } metaname
                        (lowerName env.loc metaname) metacontent' :=
                      halike metaname _ metacontent' hatts hatts'
                    have hkind : ({ pd with bumpWord } : ParserData).isHtml = true := hhtml
                    rw [hbump]
                    exact bakeHtmlMeta_alike hkind hlower hlowered hbumped
              obtain ⟨lowered, rfl⟩ : ∃ lowered, metaname' = some lowered := by
                rcases hname with rfl | rfl <;> exact ⟨_, rfl⟩
              refine (hbaked lowered rfl).bind ?_
              rintro ⟨hasTag, pd₁⟩ _ - - rfl
              exact rfl

theorem openTag_alike (ha : env.loc.AsciiAgrees) (hl : env.loc.Lowers) (hhtml : pd.isHtml = true)
    (hmeta : strTolower env.loc name = .ok (lit "meta"))
    (h : NamesAlike env pd (.startElement name atts)) :
    Related (· = ·) SameHalt (openTag env.toTagEnv pd name atts none)
      (openTag env.toTagEnv pd name (atts.map fun atts => atts.map (lowerAtt env.loc)) none) := by
  refine (related_same (freeTag pd)).bind ?_
  rintro pd₁ _ hfree - rfl
  obtain rfl := freeTag_ok hfree
  have hfreed : NamesAlike env { pd with tag := .null } (.startElement name atts) := h
  have hkind : ({ pd with tag := .null } : ParserData).isHtml = true := hhtml
  refine (bakeTag_alike ha hl hkind hmeta hfreed).bind ?_
  rintro ⟨baked, pd₂⟩ _ - - rfl
  exact related_same _

/-- An event that does not tell the names apart does the same with the lowercase one. -/
theorem saxStep_alike {fuel : Nat} (ha : env.loc.AsciiAgrees) (hl : env.loc.Lowers)
    (hhtml : pd.isHtml = true) {e : SaxEvent} (h : NamesAlike env pd e) :
    Related (· = ·) SameHalt (saxStep env fuel pd e)
      (saxStep env fuel pd (lowerNames env.loc e)) := by
  cases e with
  | startElement name atts =>
      simp only [lowerNames]
      split
      · rename_i hmeta
        exact openTag_alike ha hl hhtml hmeta h
      · exact related_same _
  | startElementNs | endElement | endElementNs | startDocument | endDocument | characters
  | comment => exact related_same _

end Events

/-- In an HTML document whose `<meta>` elements do not tell their names from the lowercase, the
lowercase names make the same of it: the parse stops in both cases, or the same is collected. -/
theorem lowerNames_sameOutcome {env : SaxEnv} {fuel : Nat} {pd : ParserData}
    {events : List SaxEvent} (ha : env.loc.AsciiAgrees) (hl : env.loc.Lowers)
    (hhtml : pd.isHtml = true) (h : Steps (saxStep env fuel) (NamesAlike env) pd events) :
    SameOutcome (run (saxStep env fuel) pd events)
      (run (saxStep env fuel) pd (events.map (lowerNames env.loc))) := by
  have hrun : Related (fun a b => a = b ∧ a.isHtml = true) SameHalt
      (run (saxStep env fuel) pd events)
      (run (saxStep env fuel) pd (events.map (lowerNames env.loc))) := by
    refine related_run ?_ ⟨rfl, hhtml⟩ h
    rintro pd₁ _ e ⟨rfl, hhtml₁⟩ halike
    refine (saxStep_alike ha hl hhtml₁ halike).mono ?_ fun _ _ hhalt => hhalt
    intro pd₂ _ hok heq
    exact ⟨heq, (saxStep_isHtml hok).trans hhtml₁⟩
  refine hrun.mono ?_ fun _ _ hhalt => hhalt
  rintro pd₁ _ - ⟨rfl, -⟩
  exact ⟨rfl, fun _ => Iff.rfl, fun _ => Iff.rfl, rfl, rfl, rfl⟩

/-- An HTML document at its start, under the default config with this `UndefinedMetaTags`. -/
def htmlDocument (undefMetas : UndefMetas) : ParserData :=
  { initParserData { configSetDefault (lit "C") with flags :=
      { (configSetDefault (lit "C")).flags with undefMetas } } .idle docinfoInit with
    isHtml := true }

/-- A `<meta>` element with a name in mixed case; its lowercase is the alias of a MetaName. -/
def metaTitle : SaxEvent :=
  .startElement (lit "meta")
    (some [(lit "name", some (lit "Title")), (lit "content", some (lit "x"))])

/-- Where undefined names are indexed the case of the name makes no difference. -/
theorem lowerNames_sameOutcome_title :
    SameOutcome (run (saxStep .alone 0) (htmlDocument .index) [metaTitle])
      (run (saxStep .alone 0) (htmlDocument .index) [lowerNames .posix metaTitle]) := by
  have halike : NamesAlike .alone (htmlDocument .index) metaTitle := by
    intro _
    refine ⟨fun name hmem => ?_, ?_⟩
    · have hkeys : lit "name" ≠ lit "content" := by decide
      have hname : name = lit "Title" := by simpa [hkeys] using hmem
      subst hname
      exact fun hlower => absurd hlower (by decide)
    · rintro metaname lowered metacontent hatts hatts'
      obtain ⟨rfl, rfl⟩ : metaname = lit "Title" ∧ metacontent = some (lit "x") := by
        cases hatts
        exact ⟨rfl, rfl⟩
      obtain rfl : lowered = lit "title" := by
        cases hatts'
        rfl
      refine .inr ⟨trivial, ?_⟩
      rintro _ baked context rfl rfl
      exact ⟨.inl rfl, .inl rfl⟩
  have hsteps : Steps (saxStep .alone 0) (NamesAlike .alone) (htmlDocument .index)
      [metaTitle] := steps_cons_iff.mpr ⟨halike, fun _ _ => steps_nil⟩
  exact lowerNames_sameOutcome Locale.posix_asciiAgrees Locale.posix_lowers rfl hsteps

/-- Where undefined names are errors the name as written is one, and its lowercase is not. -/
theorem sameOutcome_not_title :
    ¬ ∀ env fuel pd events, env.loc.AsciiAgrees → env.loc.Lowers → pd.isHtml = true →
      SameOutcome (run (saxStep env fuel) pd events)
        (run (saxStep env fuel) pd (events.map (lowerNames env.loc))) := by
  intro h
  have hsame := h .alone 0 (htmlDocument .error) [metaTitle] Locale.posix_asciiAgrees
    Locale.posix_lowers rfl
  have hcroaks : ∃ msg, run (saxStep .alone 0) (htmlDocument .error) [metaTitle] =
      .error (.croak msg) := ⟨_, rfl⟩
  have hreturns : (run (saxStep .alone 0) (htmlDocument .error)
      [lowerNames .posix metaTitle]).toOption.map (fun _ => ()) = some () := rfl
  obtain ⟨msg, hcroaks⟩ := hcroaks
  obtain ⟨pd', hreturns, -⟩ := exists_ok_of_map hreturns
  rw [hcroaks] at hsame
  change Related _ _ _ (run (saxStep .alone 0) (htmlDocument .error)
    [lowerNames .posix metaTitle]) at hsame
  rw [hreturns] at hsame
  exact hsame

end LibSwish3
