import LibSwish3.Parser

/-!
# Rules for the parser

What the functions of the parser leave alone, and how an invariant is carried through a tag.

Most of them are `Calm`: they move text about and may make the config grow, but the stacks and
the switches stay.  `pushTags_ok` and `popTags_ok` say what the others do to the stacks.

Tags that `bake_tag` finds in the attributes of another are tags of their own.  `BakeSteps`
lists what an invariant has to survive inside `bake_tag`, with one obligation for such a
nested tag, and `BakeMeets` is the condition under which it does; `BakeKept` is the shorter
list for an invariant that calm calls cannot break.

## Main definitions

* `Calm` — a call that touches neither the stacks nor the switches.
* `Pushes` — what opening a tag does to a stack.
* `BakeSteps`, `BakeKept`, `BakeMeets` — invariants of `bake_tag`.
* `TagSteps`, `TagKept`, `StartMeets`, `EndMeets` — invariants of single tags.
* `TextSteps` — invariants that do not look at the switches.
* `TokenSteps` — invariants that do not look at the buffers and the stacks.
-/

namespace LibSwish3

open Runs Tables

/-! ## Calls that leave the stacks alone -/

/-- The config after a call that may have added names. -/
structure Grows (c c' : Config) : Prop where
  metanames : ∀ k ∈ c.metanames, k ∈ c'.metanames
  properties : ∀ k ∈ c.properties, k ∈ c'.properties
  tagAliases : c'.tagAliases = c.tagAliases
  undefMetas : c'.flags.undefMetas = c.flags.undefMetas
  ignoreXmlns : c'.flags.ignoreXmlns = c.flags.ignoreXmlns

/-- Only text, tokens, the current tag and the word bump have changed, and names may have
been added to the config. -/
structure Calm (pd pd' : ParserData) : Prop where
  config : Grows pd.config pd'.config
  ignoreContent : pd'.ignoreContent = pd.ignoreContent
  isHtml : pd'.isHtml = pd.isHtml
  metastack : pd'.metastack = pd.metastack
  propstack : pd'.propstack = pd.propstack
  domstack : pd'.domstack = pd.domstack

theorem Grows.refl (c : Config) : Grows c c := ⟨fun _ h => h, fun _ h => h, rfl, rfl, rfl⟩

theorem Grows.trans {c₁ c₂ c₃ : Config} (h : Grows c₁ c₂) (h' : Grows c₂ c₃) : Grows c₁ c₃ where
  metanames k hk := h'.metanames k (h.metanames k hk)
  properties k hk := h'.properties k (h.properties k hk)
  tagAliases := h'.tagAliases.trans h.tagAliases
  undefMetas := h'.undefMetas.trans h.undefMetas
  ignoreXmlns := h'.ignoreXmlns.trans h.ignoreXmlns

theorem Calm.refl (pd : ParserData) : Calm pd pd := ⟨.refl _, rfl, rfl, rfl, rfl, rfl⟩

theorem Calm.trans {pd₁ pd₂ pd₃ : ParserData} (h : Calm pd₁ pd₂) (h' : Calm pd₂ pd₃) :
    Calm pd₁ pd₃ where
  config := h.config.trans h'.config
  ignoreContent := h'.ignoreContent.trans h.ignoreContent
  isHtml := h'.isHtml.trans h.isHtml
  metastack := h'.metastack.trans h.metastack
  propstack := h'.propstack.trans h.propstack
  domstack := h'.domstack.trans h.domstack

section Text

variable {pd pd' : ParserData}

theorem bufferCharacters_calm (pd : ParserData) (ch : XmlStr) :
    Calm pd (bufferCharacters pd ch) := by
  rw [bufferCharacters]
  split
  · exact .refl pd
  · exact ⟨.refl _, rfl, rfl, rfl, rfl, rfl⟩

theorem tokenizeBuffer_ok {metaname context : XmlStr}
    (h : tokenizeBuffer pd metaname context = .ok pd') :
    ∃ tokens nwords, pd' = { pd with tokens, docinfo := { pd.docinfo with nwords } } := by
  unfold tokenizeBuffer at h
  split at h
  · cases h
    exact ⟨pd.tokens, pd.docinfo.nwords, rfl⟩
  · obtain ⟨⟨tokens, n⟩, -, h⟩ := bind_ok_iff.mp h
    exact ⟨tokens, pd.docinfo.nwords + n, (Except.ok.inj h).symm⟩

/-- Flushing touches the MetaName buffers, the tokens and the number of words. -/
theorem flushBuffer_ok {metaname context : XmlStr}
    (h : flushBuffer pd metaname context = .ok pd') :
    ∃ metanames tokens nwords, pd' = { pd with
      metanames, tokens, docinfo := { pd.docinfo with nwords }, metaBuf := [] } := by
  obtain ⟨storedAs, -, h⟩ := bind_ok_iff.mp h
  obtain ⟨metanames, -, h⟩ := bind_ok_iff.mp h
  obtain ⟨metanames, -, h⟩ := bind_ok_iff.mp h
  obtain ⟨pd₁, htok, h⟩ := bind_ok_iff.mp h
  obtain ⟨tokens, nwords, rfl⟩ := tokenizeBuffer_ok htok
  exact ⟨metanames, tokens, nwords, (Except.ok.inj h).symm⟩

theorem flushBuffer_calm {metaname context : XmlStr}
    (h : flushBuffer pd metaname context = .ok pd') : Calm pd pd' := by
  obtain ⟨metanames, tokens, nwords, rfl⟩ := flushBuffer_ok h
  exact ⟨.refl _, rfl, rfl, rfl, rfl, rfl⟩

theorem flushHead_calm (h : flushHead pd = .ok pd') : Calm pd pd' := by
  obtain ⟨top, -, h⟩ := bind_ok_iff.mp h
  exact flushBuffer_calm h

/-- Adding the property buffer touches the Property buffers only. -/
theorem addStackToPropBuf_ok {baked : Option XmlStr} (h : addStackToPropBuf pd baked = .ok pd') :
    ∃ properties, pd' = { pd with properties, propBuf := [] } := by
  obtain ⟨⟨s, cleanwsp⟩, -, h⟩ := bind_ok_iff.mp h
  obtain ⟨⟨properties, propBuf⟩, -, h⟩ := bind_ok_iff.mp h
  exact ⟨properties, (Except.ok.inj h).symm⟩

theorem freeTag_ok (h : freeTag pd = .ok pd') : pd' = { pd with tag := .null } := by
  obtain ⟨_, -, h⟩ := bind_ok_iff.mp h
  exact (Except.ok.inj h).symm

end Text

/-! ## Undefined names -/

section Undefined

variable {pd pd' : ParserData}

theorem metanameNew_grows {name : XmlStr} {c c' : Config} (h : metanameNew name c = .ok c') :
    Grows c c' := by
  obtain ⟨metaIds, -, h⟩ := bind_ok_iff.mp h
  obtain ⟨metanames, hadd, h⟩ := bind_ok_iff.mp h
  obtain ⟨-, rfl⟩ := hashAdd_ok_iff.mp hadd
  cases h
  exact ⟨fun k hk => (AList.mem_insert _).mpr (.inr hk), fun k hk => hk, rfl, rfl, rfl⟩

theorem propertyNew_grows {name : XmlStr} {c c' : Config} (h : propertyNew name c = .ok c') :
    Grows c c' := by
  obtain ⟨propIds, -, h⟩ := bind_ok_iff.mp h
  obtain ⟨properties, hadd, h⟩ := bind_ok_iff.mp h
  obtain ⟨-, rfl⟩ := hashAdd_ok_iff.mp hadd
  cases h
  exact ⟨fun k hk => hk, fun k hk => (AList.mem_insert _).mpr (.inr hk), rfl, rfl, rfl⟩

/-- A new name, and the buffer under it, are all that changes. -/
theorem autoMetaname_new {name : XmlStr} (h : autoMetaname pd name = .ok pd') :
    ∃ config, metanameNew name pd.config = .ok config ∧
      pd' = { pd with config, metanames := nbNew pd.metanames name } := by
  obtain ⟨config, hnew, h⟩ := bind_ok_iff.mp h
  exact ⟨config, hnew, (Except.ok.inj h).symm⟩

theorem autoProperty_new {name : XmlStr} (h : autoProperty pd name = .ok pd') :
    pd' = pd ∨ ∃ config, propertyNew name pd.config = .ok config ∧
      pd' = { pd with config, properties := nbNew pd.properties name } := by
  unfold autoProperty at h
  split at h
  · exact .inl (Except.ok.inj h).symm
  · obtain ⟨config, hnew, h⟩ := bind_ok_iff.mp h
    exact .inr ⟨config, hnew, (Except.ok.inj h).symm⟩

theorem autoMetaname_calm {name : XmlStr} (h : autoMetaname pd name = .ok pd') :
    Calm pd pd' := by
  obtain ⟨config, hnew, rfl⟩ := autoMetaname_new h
  exact ⟨metanameNew_grows hnew, rfl, rfl, rfl, rfl, rfl⟩

theorem autoProperty_calm {name : XmlStr} (h : autoProperty pd name = .ok pd') :
    Calm pd pd' := by
  rcases autoProperty_new h with rfl | ⟨config, hnew, rfl⟩
  · exact .refl pd'
  · exact ⟨propertyNew_grows hnew, rfl, rfl, rfl, rfl, rfl⟩

/-- What the switch for an XML tag can do. -/
inductive XmlTagSwitch (pd : ParserData) (name : XmlStr) : ParserData → Prop
  | defined (hdefined : name ∈ pd.config.metanames ∨ name ∈ pd.config.tagAliases) :
      XmlTagSwitch pd name pd
  | ignore (hnot : ¬ (name ∈ pd.config.metanames ∨ name ∈ pd.config.tagAliases))
      (hmode : pd.config.flags.undefMetas = .ignore) :
      XmlTagSwitch pd name { pd with ignoreContent := pd.ignoreContent + 1 }
  | auto {pd' : ParserData} (hnot : ¬ (name ∈ pd.config.metanames ∨ name ∈ pd.config.tagAliases))
      (hmode : pd.config.flags.undefMetas = .auto) (hmeta : autoMetaname pd name = .ok pd') :
      XmlTagSwitch pd name pd'
  | autoall {pd₁ pd' : ParserData}
      (hnot : ¬ (name ∈ pd.config.metanames ∨ name ∈ pd.config.tagAliases))
      (hmode : pd.config.flags.undefMetas = .autoall) (hmeta : autoMetaname pd name = .ok pd₁)
      (hprop : autoProperty pd₁ name = .ok pd') :
      XmlTagSwitch pd name pd'
  | index (hnot : ¬ (name ∈ pd.config.metanames ∨ name ∈ pd.config.tagAliases))
      (hmode : pd.config.flags.undefMetas = .index) :
      XmlTagSwitch pd name { pd with ignoreContent := 0 }

/-- What the switch for the name of an HTML `<meta>` element can do. -/
inductive HtmlMetaSwitch (pd : ParserData) (name : XmlStr) : ParserData → Prop
  | defined (hdefined : name ∈ pd.config.metanames ∨ name ∈ pd.config.tagAliases) :
      HtmlMetaSwitch pd name pd
  | ignore (hnot : ¬ (name ∈ pd.config.metanames ∨ name ∈ pd.config.tagAliases))
      (hmode : pd.config.flags.undefMetas = .ignore) :
      HtmlMetaSwitch pd name { pd with ignoreContent := pd.ignoreContent + 1 }
  | auto {pd' : ParserData} (hmode : pd.config.flags.undefMetas = .auto)
      (hmeta : autoMetaname pd name = .ok pd') :
      HtmlMetaSwitch pd name pd'
  | autoall {pd₁ pd' : ParserData} (hmode : pd.config.flags.undefMetas = .autoall)
      (hmeta : autoMetaname pd name = .ok pd₁) (hprop : autoProperty pd₁ name = .ok pd') :
      HtmlMetaSwitch pd name pd'
  | index (hmode : pd.config.flags.undefMetas = .index) : HtmlMetaSwitch pd name pd

/-- What the switch for an XML attribute can do. -/
inductive XmlAttrSwitch (pd : ParserData) (name value : XmlStr) : ParserData → Prop
  | defined (hmem : name ∈ pd.config.metanames) : XmlAttrSwitch pd name value pd
  | skipped (hnot : name ∉ pd.config.metanames)
      (hmode : pd.config.flags.undefAttrs = .ignore ∨ pd.config.flags.undefAttrs = .disable) :
      XmlAttrSwitch pd name value pd
  | auto {pd' : ParserData} (hnot : name ∉ pd.config.metanames)
      (hmode : pd.config.flags.undefAttrs = .auto) (hmeta : autoMetaname pd name = .ok pd') :
      XmlAttrSwitch pd name value pd'
  | autoall {pd₁ pd' : ParserData} (hnot : name ∉ pd.config.metanames)
      (hmode : pd.config.flags.undefAttrs = .autoall) (hmeta : autoMetaname pd name = .ok pd₁)
      (hprop : autoProperty pd₁ name = .ok pd') :
      XmlAttrSwitch pd name value pd'
  | index (hnot : name ∉ pd.config.metanames) (hmode : pd.config.flags.undefAttrs = .index) :
      XmlAttrSwitch pd name value
        { bufferCharacters { pd with bumpWord := true } value with bumpWord := pd.bumpWord }

theorem undefXmlTag_switch {name : XmlStr} (h : undefXmlTag pd name = .ok pd') :
    XmlTagSwitch pd name pd' := by
  by_cases hdefined : name ∈ pd.config.metanames ∨ name ∈ pd.config.tagAliases
  · rw [undefXmlTag, if_pos hdefined] at h
    cases h
    exact .defined hdefined
  · rw [undefXmlTag, if_neg hdefined] at h
    cases hmode : pd.config.flags.undefMetas with
    | error => simp [hmode, croak] at h
    | ignore =>
        simp only [hmode, Except.ok.injEq] at h
        exact h ▸ .ignore hdefined hmode
    | auto =>
        simp only [hmode] at h
        exact .auto hdefined hmode h
    | autoall =>
        simp only [hmode] at h
        obtain ⟨pd₁, hmeta, hprop⟩ := bind_ok_iff.mp h
        exact .autoall hdefined hmode hmeta hprop
    | index =>
        simp only [hmode, Except.ok.injEq] at h
        exact h ▸ .index hdefined hmode

theorem undefHtmlMeta_switch {name : XmlStr} (h : undefHtmlMeta pd name = .ok pd') :
    HtmlMetaSwitch pd name pd' := by
  by_cases hdefined : name ∈ pd.config.metanames ∨ name ∈ pd.config.tagAliases
  · rw [undefHtmlMeta, if_pos hdefined] at h
    cases h
    exact .defined hdefined
  · rw [undefHtmlMeta, if_neg hdefined] at h
    cases hmode : pd.config.flags.undefMetas with
    | error => simp [hmode, croak] at h
    | ignore =>
        simp only [hmode, Except.ok.injEq] at h
        exact h ▸ .ignore hdefined hmode
    | auto =>
        simp only [hmode] at h
        exact .auto hmode h
    | autoall =>
        simp only [hmode] at h
        obtain ⟨pd₁, hmeta, hprop⟩ := bind_ok_iff.mp h
        exact .autoall hmode hmeta hprop
    | index =>
        simp only [hmode, Except.ok.injEq] at h
        exact h ▸ .index hmode

theorem undefXmlAttr_switch {name value : XmlStr} (h : undefXmlAttr pd name value = .ok pd') :
    XmlAttrSwitch pd name value pd' := by
  by_cases hmem : name ∈ pd.config.metanames
  · rw [undefXmlAttr, if_pos hmem] at h
    cases h
    exact .defined hmem
  · rw [undefXmlAttr, if_neg hmem] at h
    cases hmode : pd.config.flags.undefAttrs with
    | error => simp [hmode, croak] at h
    | ignore =>
        simp only [hmode, Except.ok.injEq] at h
        exact h ▸ .skipped hmem (.inl hmode)
    | disable =>
        simp only [hmode, Except.ok.injEq] at h
        exact h ▸ .skipped hmem (.inr hmode)
    | auto =>
        simp only [hmode] at h
        exact .auto hmem hmode h
    | autoall =>
        simp only [hmode] at h
        obtain ⟨pd₁, hmeta, hprop⟩ := bind_ok_iff.mp h
        exact .autoall hmem hmode hmeta hprop
    | index =>
        simp only [hmode, Except.ok.injEq] at h
        exact h ▸ .index hmem hmode

/-- An undefined HTML name may hide what follows, and nothing else. -/
theorem undefHtmlMeta_calm {metaname : XmlStr} (h : undefHtmlMeta pd metaname = .ok pd') :
    ∃ n, Calm { pd with ignoreContent := n } pd' := by
  cases undefHtmlMeta_switch h with
  | defined | index => exact ⟨_, .refl pd⟩
  | ignore => exact ⟨_, .refl _⟩
  | auto _ hmeta => exact ⟨pd.ignoreContent, autoMetaname_calm hmeta⟩
  | autoall _ hmeta hprop =>
      exact ⟨pd.ignoreContent, (autoMetaname_calm hmeta).trans (autoProperty_calm hprop)⟩

/-- An undefined XML tag may hide what follows or show it again, and nothing else. -/
theorem undefXmlTag_calm {swishtag : XmlStr} (h : undefXmlTag pd swishtag = .ok pd') :
    ∃ n, Calm { pd with ignoreContent := n } pd' := by
  cases undefXmlTag_switch h with
  | defined => exact ⟨_, .refl pd⟩
  | ignore | index => exact ⟨_, .refl _⟩
  | auto _ _ hmeta => exact ⟨pd.ignoreContent, autoMetaname_calm hmeta⟩
  | autoall _ _ hmeta hprop =>
      exact ⟨pd.ignoreContent, (autoMetaname_calm hmeta).trans (autoProperty_calm hprop)⟩

theorem undefXmlAttr_calm {name value : XmlStr} (h : undefXmlAttr pd name value = .ok pd') :
    Calm pd pd' := by
  cases undefXmlAttr_switch h with
  | defined | skipped => exact .refl pd
  | auto _ _ hmeta => exact autoMetaname_calm hmeta
  | autoall _ _ hmeta hprop => exact (autoMetaname_calm hmeta).trans (autoProperty_calm hprop)
  | index =>
      have hbuf := bufferCharacters_calm { pd with bumpWord := true } value
      exact ⟨hbuf.config, hbuf.ignoreContent, hbuf.isHtml, hbuf.metastack, hbuf.propstack,
        hbuf.domstack⟩

theorem htmlBump_eq (env : TagEnv) (pd : ParserData) (swishtag : XmlStr) :
    ∃ b, htmlBump env pd swishtag = { pd with bumpWord := b } := by
  rw [htmlBump]
  split
  · exact ⟨true, rfl⟩
  · split
    · exact ⟨pd.bumpWord, rfl⟩
    · exact ⟨_, rfl⟩

theorem htmlBump_calm (env : TagEnv) (pd : ParserData) (swishtag : XmlStr) :
    Calm pd (htmlBump env pd swishtag) := by
  obtain ⟨b, hbump⟩ := htmlBump_eq env pd swishtag
  rw [hbump]
  exact ⟨.refl _, rfl, rfl, rfl, rfl, rfl⟩

theorem plainTag_calm {env : TagEnv} {swishtag : XmlStr}
    (h : plainTag env pd swishtag = .ok pd') : ∃ n, Calm { pd with ignoreContent := n } pd' := by
  unfold plainTag at h
  split at h
  · cases h
    exact ⟨_, htmlBump_calm env _ swishtag⟩
  · obtain ⟨n, hcalm⟩ := undefXmlTag_calm h
    exact ⟨n, ⟨hcalm.config, hcalm.ignoreContent, hcalm.isHtml, hcalm.metastack,
      hcalm.propstack, hcalm.domstack⟩⟩

end Undefined

/-! ## Opening and closing -/

/-- The dotted path of an element. -/
def domContext (pd : ParserData) (raw : XmlStr) (tag : Option XmlStr) : XmlStr :=
  flattenTagStack (tag.getD raw) pd.domstack Swish.dot

/-- What opening a tag does to a stack: one entry for a key of the table, under the name
`open_tag` chooses, and nothing otherwise. -/
def Pushes {α : Type} (config : Config) (hash : HashTable α) (raw : XmlStr)
    (tag : Option XmlStr) (context : XmlStr) (stack stack' : TagStack) : Prop :=
  if isKey hash tag context then
    ∃ baked, pushedName config tag context = .ok baked ∧
      stack' = stack.push raw baked Swish.domChar
  else stack' = stack

section Stacks

variable {pd pd' : ParserData} {raw : XmlStr} {tag : Option XmlStr} {context : XmlStr}

private theorem pushProperty_ok (h : pushProperty pd raw tag context = .ok pd') :
    Pushes pd.config pd.config.properties raw tag context pd.propstack pd'.propstack ∧
      pd'.config = pd.config ∧ Calm { pd with propstack := pd'.propstack } pd' := by
  unfold pushProperty at h
  rw [Pushes]
  split at h
  · rename_i hkey
    obtain ⟨pd₁, hadd, h⟩ := bind_ok_iff.mp h
    obtain ⟨properties, rfl⟩ := addStackToPropBuf_ok hadd
    obtain ⟨baked, hbaked, h⟩ := bind_ok_iff.mp h
    cases h
    rw [if_pos hkey]
    exact ⟨⟨baked, hbaked, rfl⟩, rfl, ⟨.refl _, rfl, rfl, rfl, rfl, rfl⟩⟩
  · rename_i hkey
    cases h
    rw [if_neg hkey]
    exact ⟨rfl, rfl, .refl _⟩

private theorem pushMetaname_ok (h : pushMetaname pd raw tag context = .ok pd') :
    Pushes pd.config pd.config.metanames raw tag context pd.metastack pd'.metastack ∧
      pd'.config = pd.config ∧ Calm { pd with metastack := pd'.metastack } pd' := by
  unfold pushMetaname at h
  rw [Pushes]
  split at h
  · rename_i hkey
    obtain ⟨pd₁, hflush, h⟩ := bind_ok_iff.mp h
    obtain ⟨top, -, hflush⟩ := bind_ok_iff.mp hflush
    obtain ⟨metanames, tokens, nwords, rfl⟩ := flushBuffer_ok hflush
    obtain ⟨baked, hbaked, h⟩ := bind_ok_iff.mp h
    cases h
    rw [if_pos hkey]
    exact ⟨⟨baked, hbaked, rfl⟩, rfl, ⟨.refl _, rfl, rfl, rfl, rfl, rfl⟩⟩
  · rename_i hkey
    cases h
    rw [if_neg hkey]
    exact ⟨rfl, rfl, .refl _⟩

private theorem popProperty_ok (h : popProperty pd raw = .ok pd') :
    ∃ st, pd.propstack.popOnMatch raw = .ok (st, pd'.propstack) ∧ pd'.config = pd.config ∧
      Calm { pd with propstack := pd'.propstack } pd' := by
  obtain ⟨⟨st, propstack⟩, hpop, h⟩ := bind_ok_iff.mp h
  cases st with
  | none =>
      cases h
      exact ⟨none, hpop, rfl, .refl _⟩
  | some st =>
      obtain ⟨properties, rfl⟩ := addStackToPropBuf_ok h
      exact ⟨some st, hpop, rfl, ⟨.refl _, rfl, rfl, rfl, rfl, rfl⟩⟩

private theorem popMetaname_ok (h : popMetaname pd raw = .ok pd') :
    ∃ st, pd.metastack.popOnMatch raw = .ok (st, pd'.metastack) ∧ pd'.config = pd.config ∧
      Calm { pd with metastack := pd'.metastack } pd' := by
  obtain ⟨⟨st, metastack⟩, hpop, h⟩ := bind_ok_iff.mp h
  cases st with
  | none =>
      cases h
      exact ⟨none, hpop, rfl, .refl _⟩
  | some st =>
      obtain ⟨metanames, tokens, nwords, rfl⟩ := flushBuffer_ok h
      exact ⟨some st, hpop, rfl, ⟨.refl _, rfl, rfl, rfl, rfl, rfl⟩⟩

/-- The property stack goes first, then the meta stack. -/
private theorem Calm.stacks {pd₁ : ParserData}
    (h₁ : Calm { pd with propstack := pd₁.propstack } pd₁)
    (h₂ : Calm { pd₁ with metastack := pd'.metastack } pd') :
    Calm { pd with propstack := pd'.propstack, metastack := pd'.metastack } pd' where
  config := h₁.config.trans h₂.config
  ignoreContent := h₂.ignoreContent.trans h₁.ignoreContent
  isHtml := h₂.isHtml.trans h₁.isHtml
  metastack := rfl
  propstack := rfl
  domstack := h₂.domstack.trans h₁.domstack

/-- What the meta stack does with a tag leaves the Properties alone. -/
theorem pushMetaname_fields (h : pushMetaname pd raw tag context = .ok pd') :
    ∃ metanames tokens nwords metaBuf metastack, pd' = { pd with
      metanames, tokens, docinfo := { pd.docinfo with nwords }, metaBuf, metastack } := by
  unfold pushMetaname at h
  split at h
  · obtain ⟨pd₁, hflush, h⟩ := bind_ok_iff.mp h
    obtain ⟨top, -, hflush⟩ := bind_ok_iff.mp hflush
    obtain ⟨metanames, tokens, nwords, rfl⟩ := flushBuffer_ok hflush
    obtain ⟨baked, -, h⟩ := bind_ok_iff.mp h
    cases h
    exact ⟨_, _, _, _, _, rfl⟩
  · cases h
    exact ⟨_, _, _, _, _, rfl⟩

theorem popMetaname_fields (h : popMetaname pd raw = .ok pd') :
    ∃ metanames tokens nwords metaBuf metastack, pd' = { pd with
      metanames, tokens, docinfo := { pd.docinfo with nwords }, metaBuf, metastack } := by
  obtain ⟨⟨st, metastack⟩, -, h⟩ := bind_ok_iff.mp h
  cases st with
  | none =>
      cases h
      exact ⟨_, _, _, _, _, rfl⟩
  | some st =>
      obtain ⟨metanames, tokens, nwords, rfl⟩ := flushBuffer_ok h
      exact ⟨_, _, _, _, _, rfl⟩

/-- Opening a tag: an entry on the stack of open elements, and one on each of the others
where it is a key. -/
theorem pushTags_ok (h : pushTags pd raw tag = .ok pd') :
    Pushes pd.config pd.config.properties raw tag (domContext pd raw tag) pd.propstack
        pd'.propstack ∧
      Pushes pd.config pd.config.metanames raw tag (domContext pd raw tag) pd.metastack
        pd'.metastack ∧
      pd'.config = pd.config ∧
      Calm { pd with
        domstack := pd.domstack.push raw (tag.getD raw) Swish.dot
        propstack := pd'.propstack
        metastack := pd'.metastack } pd' := by
  obtain ⟨top, htop, h⟩ := bind_ok_iff.mp h
  cases htop
  obtain ⟨pd₁, hprop, h⟩ := bind_ok_iff.mp h
  obtain ⟨hprop, hconfig₁, hcalm₁⟩ := pushProperty_ok hprop
  obtain ⟨hmeta, hconfig₂, hcalm₂⟩ := pushMetaname_ok h
  rw [hconfig₁, hcalm₁.metastack] at hmeta
  have hsame : pd'.propstack = pd₁.propstack := hcalm₂.propstack
  rw [← hsame] at hprop
  exact ⟨hprop, hmeta, hconfig₂.trans hconfig₁, hcalm₁.stacks hcalm₂⟩

/-- Closing a tag: each stack is popped on its own. -/
theorem popTags_ok (h : popTags pd raw = .ok pd') :
    ∃ st st' dom, pd.propstack.popOnMatch raw = .ok (st, pd'.propstack) ∧
      pd.metastack.popOnMatch raw = .ok (st', pd'.metastack) ∧
      pd.domstack.pop = (some dom, pd'.domstack) ∧
      pd'.config = pd.config ∧
      Calm { pd with
        domstack := pd'.domstack, propstack := pd'.propstack, metastack := pd'.metastack }
        pd' := by
  obtain ⟨pd₁, hprop, h⟩ := bind_ok_iff.mp h
  obtain ⟨pd₂, hmeta, h⟩ := bind_ok_iff.mp h
  obtain ⟨st, hpop, hconfig₁, hcalm₁⟩ := popProperty_ok hprop
  obtain ⟨st', hpop', hconfig₂, hcalm₂⟩ := popMetaname_ok hmeta
  have hcalm := hcalm₁.stacks hcalm₂
  have hps : pd₂.propstack = pd₁.propstack := hcalm₂.propstack
  have hms : pd₁.metastack = pd.metastack := hcalm₁.metastack
  have hdom : pd₂.domstack = pd.domstack := hcalm.domstack
  rw [← hps] at hpop
  rw [hms] at hpop'
  rw [hdom] at h
  cases hdomtop : pd.domstack.pop with
  | mk dom domstack =>
      rw [hdomtop] at h
      cases dom with
      | none => cases h
      | some dom =>
          cases h
          refine ⟨st, st', dom, hpop, hpop', rfl, hconfig₂.trans hconfig₁, ?_⟩
          exact ⟨hcalm.config, hcalm.ignoreContent, hcalm.isHtml, rfl, rfl, rfl⟩

end Stacks

/-! ## Baking tags -/

section Bake

variable {env : TagEnv} {pd pd' : ParserData} {name content : XmlStr}
  {xmlnsPrefix : Option XmlStr}

/-- The state in which a tag without attributes reaches the stacks, and its baked name. -/
def BakesPlain (env : TagEnv) (pd : ParserData) (tag : XmlStr) (xmlnsPrefix : Option XmlStr)
    (pd₁ : ParserData) (baked : XmlStr) : Prop :=
  ∃ swishtag pd₂, normalizeTag env pd tag xmlnsPrefix = .ok swishtag ∧
    plainTag env { pd with tag := .null } swishtag = .ok pd₂ ∧
    baked = aliasTag pd₂ swishtag ∧ pd₁ = { pd₂ with tag := .live baked }

theorem bakesPlain_of_ok {pd₀ pd₁ : ParserData} {baked : XmlStr} (hfree : freeTag pd = .ok pd₀)
    (hbake : bakeTagPlain env pd₀ name xmlnsPrefix = .ok (baked, pd₁)) :
    BakesPlain env pd name xmlnsPrefix { pd₁ with tag := .live baked } baked := by
  obtain ⟨swishtag, hnorm, hbake⟩ := bind_ok_iff.mp hbake
  obtain ⟨pd₂, hplain, hbake⟩ := bind_ok_iff.mp hbake
  rw [freeTag_ok hfree] at hplain hnorm
  cases hbake
  exact ⟨swishtag, pd₁, hnorm, hplain, rfl, rfl⟩

theorem openTagPlain_ok (h : openTagPlain env pd name xmlnsPrefix = .ok pd') :
    ∃ pd₁ baked, BakesPlain env pd name xmlnsPrefix pd₁ baked ∧
      pushTags pd₁ name (some baked) = .ok pd' := by
  obtain ⟨pd₀, hfree, h⟩ := bind_ok_iff.mp h
  obtain ⟨⟨baked, pd₁⟩, hbake, h⟩ := bind_ok_iff.mp h
  exact ⟨_, _, bakesPlain_of_ok hfree hbake, h⟩

theorem closeTag_ok (h : closeTag env pd name xmlnsPrefix = .ok pd') :
    ∃ pd₁ baked, BakesPlain env pd name xmlnsPrefix pd₁ baked ∧ popTags pd₁ name = .ok pd' := by
  obtain ⟨pd₀, hfree, h⟩ := bind_ok_iff.mp h
  obtain ⟨⟨baked, pd₁⟩, hbake, h⟩ := bind_ok_iff.mp h
  exact ⟨_, _, bakesPlain_of_ok hfree hbake, h⟩

theorem BakesPlain.calm {pd₁ : ParserData} {tag baked : XmlStr}
    (h : BakesPlain env pd tag xmlnsPrefix pd₁ baked) :
    ∃ n, Calm { pd with ignoreContent := n } pd₁ := by
  obtain ⟨swishtag, pd₂, -, hplain, -, rfl⟩ := h
  obtain ⟨n, hcalm⟩ := plainTag_calm hplain
  exact ⟨n, ⟨hcalm.config, hcalm.ignoreContent, hcalm.isHtml, hcalm.metastack,
    hcalm.propstack, hcalm.domstack⟩⟩

/-- A nested tag is opened, filled and closed. -/
theorem nestedTag_ok (h : nestedTag env pd name content xmlnsPrefix = .ok pd') :
    ∃ pd₁ pd₂, openTagPlain env { pd with bumpWord := true } name xmlnsPrefix = .ok pd₁ ∧
      closeTag env (bufferCharacters pd₁ content) name xmlnsPrefix = .ok pd₂ ∧
      pd' = { pd₂ with tag := .freed } := by
  obtain ⟨pd₁, hopen, h⟩ := bind_ok_iff.mp h
  obtain ⟨pd₂, hclose, h⟩ := bind_ok_iff.mp h
  exact ⟨pd₁, pd₂, hopen, hclose, (Except.ok.inj h).symm⟩

/-- What an invariant has to survive inside `bake_tag`, step by step.  `N` is the condition on a
nested tag, seen from the state before it, and `D` the one on the name of an XML tag. -/
structure BakeSteps (env : TagEnv) (N : ParserData → XmlStr → Option XmlStr → Prop)
    (D : ParserData → XmlStr → Prop) (P : ParserData → Prop) : Prop where
  bumpWord : ∀ pd bumpWord, P pd → P { pd with bumpWord }
  undefXmlAttr : ∀ pd name value pd', P pd → undefXmlAttr pd name value = .ok pd' → P pd'
  undefXmlTag : ∀ pd swishtag pd', P pd → pd.isHtml = false → D pd swishtag →
    undefXmlTag pd swishtag = .ok pd' → P pd'
  undefHtmlMeta : ∀ pd metaname pd', P pd → undefHtmlMeta pd metaname = .ok pd' →
    P pd' ∧ P { pd' with ignoreContent := pd.ignoreContent }
  nested : ∀ pd name content xmlnsPrefix pd', P pd → N pd name xmlnsPrefix →
    nestedTag env pd name content xmlnsPrefix = .ok pd' → P pd'

/-- The same for an invariant that no calm call breaks. -/
structure BakeKept (env : TagEnv) (N : ParserData → XmlStr → Option XmlStr → Prop)
    (D : ParserData → XmlStr → Prop) (P : ParserData → Prop) : Prop where
  calm : ∀ pd pd', P pd → Calm pd pd' → P pd'
  undefXmlTag : ∀ pd swishtag pd', P pd → pd.isHtml = false → D pd swishtag →
    undefXmlTag pd swishtag = .ok pd' → P pd'
  undefHtmlMeta : ∀ pd metaname pd', P pd → undefHtmlMeta pd metaname = .ok pd' →
    P pd' ∧ P { pd' with ignoreContent := pd.ignoreContent }
  nested : ∀ pd name content xmlnsPrefix pd', P pd → N pd name xmlnsPrefix →
    nestedTag env pd name content xmlnsPrefix = .ok pd' → P pd'

/-- The condition on an attribute: where it is a MetaName, its tag meets `N`. -/
def AttributeMeets (env : TagEnv) (N : ParserData → XmlStr → Option XmlStr → Prop)
    (xmlnsPrefix : Option XmlStr) (s : ParserData × XmlStr) (att : XmlStr × Option XmlStr) :
    Prop :=
  ∀ swishtag metanameFromAttr attrValLower pd,
    attributeNames env s.1 s.2 att = .ok (swishtag, metanameFromAttr, attrValLower) →
    undefXmlAttr s.1 metanameFromAttr attrValLower = .ok pd →
    metanameFromAttr ∈ pd.config.metanames → N pd metanameFromAttr xmlnsPrefix

/-- The condition on a tag: each tag nested in it meets `N`, and its own name meets `D`. -/
def BakeMeets (env : TagEnv) (N : ParserData → XmlStr → Option XmlStr → Prop)
    (D : ParserData → XmlStr → Prop) (pd : ParserData) (tag : XmlStr) (atts : Option Atts)
    (xmlnsPrefix : Option XmlStr) : Prop :=
  ∀ swishtag, normalizeTag env pd tag xmlnsPrefix = .ok swishtag →
    (pd.isHtml = true → ∀ metaname metacontent,
      metaAtts swishtag atts = (some metaname, some metacontent) →
      ∀ pd₁, undefHtmlMeta (htmlBump env pd swishtag) metaname = .ok pd₁ →
        N pd₁ metaname xmlnsPrefix) ∧
    (pd.isHtml = false →
      Steps (bakeAttribute env xmlnsPrefix) (AttributeMeets env N xmlnsPrefix)
        ({ pd with bumpWord := true }, swishtag) (atts.getD []) ∧
      ∀ s, run (bakeAttribute env xmlnsPrefix) ({ pd with bumpWord := true }, swishtag)
        (atts.getD []) = .ok s → D s.1 s.2)

variable {N : ParserData → XmlStr → Option XmlStr → Prop} {D : ParserData → XmlStr → Prop}
  {P : ParserData → Prop}

theorem calm_tag (tag : CPtr XmlStr) : Calm pd { pd with tag } :=
  ⟨.refl _, rfl, rfl, rfl, rfl, rfl⟩

theorem calm_bumpWord (b : Bool) : Calm pd { pd with bumpWord := b } :=
  ⟨.refl _, rfl, rfl, rfl, rfl, rfl⟩

/-- Neither an attribute nor the tag in it changes the kind of the document. -/
private theorem nestedTag_isHtml (h : nestedTag env pd name content xmlnsPrefix = .ok pd') :
    pd'.isHtml = pd.isHtml := by
  obtain ⟨pd₁, pd₂, hopen, hclose, rfl⟩ := nestedTag_ok h
  obtain ⟨pd₃, baked, hbake, hpush⟩ := openTagPlain_ok hopen
  obtain ⟨pd₄, baked', hbake', hpop⟩ := closeTag_ok hclose
  obtain ⟨n, hcalm⟩ := hbake.calm
  obtain ⟨n', hcalm'⟩ := hbake'.calm
  obtain ⟨-, -, -, hpushed⟩ := pushTags_ok hpush
  obtain ⟨_, _, _, -, -, -, -, hpopped⟩ := popTags_ok hpop
  calc pd₂.isHtml = pd₄.isHtml := hpopped.isHtml
    _ = (bufferCharacters pd₁ content).isHtml := hcalm'.isHtml
    _ = pd₁.isHtml := (bufferCharacters_calm pd₁ content).isHtml
    _ = pd₃.isHtml := hpushed.isHtml
    _ = pd.isHtml := hcalm.isHtml

theorem BakeKept.steps (H : BakeKept env N D P) : BakeSteps env N D P where
  bumpWord _ b hP := H.calm _ _ hP (calm_bumpWord b)
  undefXmlAttr _ _ _ _ hP h := H.calm _ _ hP (undefXmlAttr_calm h)
  undefXmlTag := H.undefXmlTag
  undefHtmlMeta := H.undefHtmlMeta
  nested := H.nested

theorem BakeSteps.bakeAttribute (H : BakeSteps env N D P) {s s' : ParserData × XmlStr}
    {att : XmlStr × Option XmlStr} (hP : P s.1)
    (hmeets : AttributeMeets env N xmlnsPrefix s att)
    (h : bakeAttribute env xmlnsPrefix s att = .ok s') :
    P s'.1 ∧ s'.1.isHtml = s.1.isHtml := by
  obtain ⟨⟨swishtag, metanameFromAttr, attrValLower⟩, hnames, h⟩ := bind_ok_iff.mp h
  obtain ⟨pd₁, hundef, h⟩ := bind_ok_iff.mp h
  obtain ⟨pd₂, htag, h⟩ := bind_ok_iff.mp h
  cases h
  have hcalm := undefXmlAttr_calm hundef
  have hP₁ := H.undefXmlAttr _ _ _ _ hP hundef
  unfold attributeTag at htag
  split at htag
  · rename_i hmem
    have hN := hmeets swishtag metanameFromAttr attrValLower pd₁ hnames hundef hmem
    exact ⟨H.nested _ _ _ _ _ hP₁ hN htag, (nestedTag_isHtml htag).trans hcalm.isHtml⟩
  · cases htag
    exact ⟨hP₁, hcalm.isHtml⟩

/-- Baking a tag that meets its condition keeps an invariant. -/
theorem BakeSteps.bakeTag (H : BakeSteps env N D P) {tag : XmlStr} {atts : Option Atts}
    {baked : Option XmlStr} (hP : P pd) (hmeets : BakeMeets env N D pd tag atts xmlnsPrefix)
    (h : bakeTag env pd tag atts xmlnsPrefix = .ok (baked, pd')) : P pd' := by
  obtain ⟨swishtag, hnorm, h⟩ := bind_ok_iff.mp h
  obtain ⟨hhtml, hxml⟩ := hmeets swishtag hnorm
  split at h
  · rename_i hisHtml
    obtain ⟨b, hbump⟩ := htmlBump_eq env pd swishtag
    have hPb : P (htmlBump env pd swishtag) := hbump ▸ H.bumpWord _ b hP
    split at h
    · rename_i metaname metacontent hfound
      obtain ⟨⟨hasTag, pd₁⟩, hmeta, h⟩ := bind_ok_iff.mp h
      cases h
      obtain ⟨pd₂, hundef, hmeta⟩ := bind_ok_iff.mp hmeta
      obtain ⟨hP₂, hP₂'⟩ := H.undefHtmlMeta _ _ _ hPb hundef
      cases metacontent with
      | some metacontent =>
          obtain ⟨pd₃, hnested, hmeta⟩ := bind_ok_iff.mp hmeta
          cases hmeta
          have hN := hhtml hisHtml metaname metacontent hfound pd₂ hundef
          exact H.bumpWord _ _ (H.nested _ _ _ _ _ hP₂ hN hnested)
      | none =>
          cases hmeta
          exact hP₂'
    · cases h
      exact hPb
  · rename_i hisHtml
    obtain ⟨hsteps, hD⟩ := hxml (by simpa using hisHtml)
    obtain ⟨⟨pd₁, swishtag₁⟩, hrun, h⟩ := bind_ok_iff.mp h
    obtain ⟨pd₂, hundef, h⟩ := bind_ok_iff.mp h
    cases h
    have hread : P pd₁ ∧ pd₁.isHtml = false := by
      refine invariant_of_steps (I := fun s => P s.1 ∧ s.1.isHtml = false) ?_
        ⟨H.bumpWord _ true hP, by simpa using hisHtml⟩ hsteps hrun
      intro s att s' hs hmeet hstep
      obtain ⟨hP', hsame⟩ := H.bakeAttribute hs.1 hmeet hstep
      exact ⟨hP', hsame.trans hs.2⟩
    exact H.undefXmlTag _ _ _ hread.1 hread.2 (hD _ hrun) hundef

theorem bakeTag_kept (H : BakeKept env N D P) {tag : XmlStr} {atts : Option Atts}
    {baked : Option XmlStr} (hP : P pd) (hmeets : BakeMeets env N D pd tag atts xmlnsPrefix)
    (h : bakeTag env pd tag atts xmlnsPrefix = .ok (baked, pd')) : P pd' :=
  H.steps.bakeTag hP hmeets h

theorem openTag_ok {tag : XmlStr} {atts : Option Atts}
    (h : openTag env pd tag atts xmlnsPrefix = .ok pd') :
    ∃ baked pd₁, bakeTag env { pd with tag := .null } tag atts xmlnsPrefix = .ok (baked, pd₁) ∧
      pushTags { pd₁ with tag := tagPtr baked } tag baked = .ok pd' := by
  obtain ⟨pd₀, hfree, h⟩ := bind_ok_iff.mp h
  obtain ⟨⟨baked, pd₁⟩, hbake, h⟩ := bind_ok_iff.mp h
  rw [freeTag_ok hfree] at hbake
  exact ⟨baked, pd₁, hbake, h⟩

/-! ### Tags that are opened and closed -/

/-- What an invariant has to survive inside a tag, step by step, the tags nested in it included.
`D` is the condition on the name of an XML tag and `C` the one on a tag that reaches the
stacks. -/
structure TagSteps (D : ParserData → XmlStr → Prop)
    (C : ParserData → XmlStr → Option XmlStr → Prop) (P : ParserData → Prop) : Prop where
  tag : ∀ pd tag, P pd → P { pd with tag }
  bumpWord : ∀ pd bumpWord, P pd → P { pd with bumpWord }
  characters : ∀ pd ch, P pd → P (bufferCharacters pd ch)
  undefXmlAttr : ∀ pd name value pd', P pd → undefXmlAttr pd name value = .ok pd' → P pd'
  undefXmlTag : ∀ pd swishtag pd', P pd → pd.isHtml = false → D pd swishtag →
    undefXmlTag pd swishtag = .ok pd' → P pd'
  undefHtmlMeta : ∀ pd metaname pd', P pd → undefHtmlMeta pd metaname = .ok pd' →
    P pd' ∧ P { pd' with ignoreContent := pd.ignoreContent }
  push : ∀ pd raw tag pd', P pd → C pd raw tag → pushTags pd raw tag = .ok pd' → P pd'
  pop : ∀ pd raw pd', P pd → popTags pd raw = .ok pd' → P pd'
  mono : ∀ pd pd' swishtag, D pd swishtag → Grows pd.config pd'.config → pd'.isHtml = pd.isHtml →
    D pd' swishtag

/-- The same for an invariant that no calm call breaks. -/
structure TagKept (D : ParserData → XmlStr → Prop)
    (C : ParserData → XmlStr → Option XmlStr → Prop) (P : ParserData → Prop) : Prop where
  calm : ∀ pd pd', P pd → Calm pd pd' → P pd'
  undefXmlTag : ∀ pd swishtag pd', P pd → pd.isHtml = false → D pd swishtag →
    undefXmlTag pd swishtag = .ok pd' → P pd'
  undefHtmlMeta : ∀ pd metaname pd', P pd → undefHtmlMeta pd metaname = .ok pd' →
    P pd' ∧ P { pd' with ignoreContent := pd.ignoreContent }
  push : ∀ pd raw tag pd', P pd → C pd raw tag → pushTags pd raw tag = .ok pd' → P pd'
  pop : ∀ pd raw pd', P pd → popTags pd raw = .ok pd' → P pd'
  mono : ∀ pd pd' swishtag, D pd swishtag → Grows pd.config pd'.config → pd'.isHtml = pd.isHtml →
    D pd' swishtag

/-- The condition on a tag without attributes. -/
def PlainMeets (env : TagEnv) (D : ParserData → XmlStr → Prop)
    (C : ParserData → XmlStr → Option XmlStr → Prop) (pd : ParserData) (tag : XmlStr)
    (xmlnsPrefix : Option XmlStr) : Prop :=
  (pd.isHtml = false → ∀ swishtag, normalizeTag env pd tag xmlnsPrefix = .ok swishtag →
    D pd swishtag) ∧
  ∀ pd₁ baked, BakesPlain env pd tag xmlnsPrefix pd₁ baked → C pd₁ tag (some baked)

variable {C : ParserData → XmlStr → Option XmlStr → Prop}

theorem TagKept.steps (H : TagKept D C P) : TagSteps D C P where
  tag _ tag hP := H.calm _ _ hP (calm_tag tag)
  bumpWord _ b hP := H.calm _ _ hP (calm_bumpWord b)
  characters _ ch hP := H.calm _ _ hP (bufferCharacters_calm _ ch)
  undefXmlAttr _ _ _ _ hP h := H.calm _ _ hP (undefXmlAttr_calm h)
  undefXmlTag := H.undefXmlTag
  undefHtmlMeta := H.undefHtmlMeta
  push := H.push
  pop := H.pop
  mono := H.mono

theorem TagSteps.bakesPlain (H : TagSteps D C P) {pd₁ : ParserData} {baked : XmlStr} (hP : P pd)
    (hD : pd.isHtml = false → ∀ swishtag, normalizeTag env pd name xmlnsPrefix = .ok swishtag →
      D pd swishtag)
    (h : BakesPlain env pd name xmlnsPrefix pd₁ baked) : P pd₁ := by
  obtain ⟨swishtag, pd₂, hnorm, hplain, -, rfl⟩ := h
  have hP₀ : P { pd with tag := .null } := H.tag _ _ hP
  have hP₂ : P pd₂ := by
    unfold plainTag at hplain
    split at hplain
    · cases hplain
      obtain ⟨b, hbump⟩ := htmlBump_eq env { pd with tag := .null } swishtag
      exact hbump ▸ H.bumpWord _ b hP₀
    · rename_i hxml
      have hxml : pd.isHtml = false := by simpa using hxml
      exact H.undefXmlTag _ _ _ (H.bumpWord _ true hP₀) hxml
        (H.mono _ _ _ (hD hxml swishtag hnorm) (.refl _) rfl) hplain
  exact H.tag _ _ hP₂

theorem TagSteps.openTagPlain (H : TagSteps D C P) (hP : P pd)
    (hmeets : PlainMeets env D C pd name xmlnsPrefix)
    (h : openTagPlain env pd name xmlnsPrefix = .ok pd') : P pd' := by
  obtain ⟨pd₁, baked, hbake, hpush⟩ := openTagPlain_ok h
  exact H.push _ _ _ _ (H.bakesPlain hP hmeets.1 hbake) (hmeets.2 _ _ hbake) hpush

theorem TagSteps.closeTag (H : TagSteps D C P) (hP : P pd)
    (hD : pd.isHtml = false → ∀ swishtag, normalizeTag env pd name xmlnsPrefix = .ok swishtag →
      D pd swishtag)
    (h : closeTag env pd name xmlnsPrefix = .ok pd') : P pd' := by
  obtain ⟨pd₁, baked, hbake, hpop⟩ := closeTag_ok h
  exact H.pop _ _ _ (H.bakesPlain hP hD hbake) hpop

theorem openTagPlain_grows (h : openTagPlain env pd name xmlnsPrefix = .ok pd') :
    Grows pd.config pd'.config ∧ pd'.isHtml = pd.isHtml := by
  obtain ⟨pd₁, baked, hbake, hpush⟩ := openTagPlain_ok h
  obtain ⟨n, hcalm⟩ := hbake.calm
  obtain ⟨-, -, -, hpushed⟩ := pushTags_ok hpush
  exact ⟨hcalm.config.trans hpushed.config, hpushed.isHtml.trans hcalm.isHtml⟩

theorem TagSteps.nestedTag (H : TagSteps D C P) (hP : P pd)
    (hmeets : PlainMeets env D C { pd with bumpWord := true } name xmlnsPrefix)
    (h : nestedTag env pd name content xmlnsPrefix = .ok pd') : P pd' := by
  obtain ⟨pd₁, pd₂, hopen, hclose, rfl⟩ := nestedTag_ok h
  have hP₁ := H.openTagPlain (H.bumpWord _ true hP) hmeets hopen
  obtain ⟨hgrows, hkind⟩ := openTagPlain_grows hopen
  have hbuf := bufferCharacters_calm pd₁ content
  have hgrown := hgrows.trans hbuf.config
  have hkind' : (bufferCharacters pd₁ content).isHtml = pd.isHtml := hbuf.isHtml.trans hkind
  refine H.tag _ _ (H.closeTag (H.characters _ content hP₁) ?_ hclose)
  intro hxml swishtag hnorm
  refine H.mono _ _ _ (hmeets.1 (hkind' ▸ hxml) swishtag ?_) hgrown hkind'
  rw [normalizeTag] at hnorm ⊢
  rw [hgrown.ignoreXmlns] at hnorm
  exact hnorm

/-- An invariant of single tags is one of `bake_tag`. -/
theorem TagSteps.bakeSteps (H : TagSteps D C P) :
    BakeSteps env (fun pd => PlainMeets env D C { pd with bumpWord := true }) D P where
  bumpWord := H.bumpWord
  undefXmlAttr := H.undefXmlAttr
  undefXmlTag := H.undefXmlTag
  undefHtmlMeta := H.undefHtmlMeta
  nested _ _ _ _ _ hP hmeets h := H.nestedTag hP hmeets h

/-- The condition on an opening tag. -/
structure StartMeets (env : TagEnv) (D : ParserData → XmlStr → Prop)
    (C : ParserData → XmlStr → Option XmlStr → Prop) (pd : ParserData) (tag : XmlStr)
    (atts : Option Atts) (xmlnsPrefix : Option XmlStr) : Prop where
  bake : BakeMeets env (fun pd => PlainMeets env D C { pd with bumpWord := true }) D
    { pd with tag := .null } tag atts xmlnsPrefix
  push : ∀ baked pd₁,
    bakeTag env { pd with tag := .null } tag atts xmlnsPrefix = .ok (baked, pd₁) →
    C { pd₁ with tag := tagPtr baked } tag baked

/-- The condition on a closing tag. -/
def EndMeets (env : TagEnv) (D : ParserData → XmlStr → Prop) (pd : ParserData) (tag : XmlStr)
    (xmlnsPrefix : Option XmlStr) : Prop :=
  pd.isHtml = false → ∀ swishtag, normalizeTag env pd tag xmlnsPrefix = .ok swishtag →
    D pd swishtag

theorem TagSteps.openTag (H : TagSteps D C P) {atts : Option Atts} (hP : P pd)
    (hmeets : StartMeets env D C pd name atts xmlnsPrefix)
    (h : openTag env pd name atts xmlnsPrefix = .ok pd') : P pd' := by
  obtain ⟨baked, pd₁, hbake, hpush⟩ := openTag_ok h
  have hP₁ := H.bakeSteps.bakeTag (H.tag _ _ hP) hmeets.bake hbake
  exact H.push _ _ _ _ (H.tag _ _ hP₁) (hmeets.push baked pd₁ hbake) hpush

/-- The condition on an XML tag without attributes. -/
theorem startMeets_of_none (hxml : pd.isHtml = false)
    (h : ∀ swishtag, normalizeTag env pd name xmlnsPrefix = .ok swishtag →
      D { pd with tag := .null, bumpWord := true } swishtag ∧
      ∀ pd₁, undefXmlTag { pd with tag := .null, bumpWord := true } swishtag = .ok pd₁ →
        C { pd₁ with tag := .live (aliasTag pd₁ swishtag) } name (some (aliasTag pd₁ swishtag))) :
    StartMeets env D C pd name none xmlnsPrefix := by
  refine ⟨fun swishtag hnorm => ⟨?_, fun _ => ⟨steps_nil, ?_⟩⟩, ?_⟩
  · intro hhtml
    exact absurd (hxml.symm.trans hhtml) (by decide)
  · intro s hs
    cases hs
    exact (h swishtag hnorm).1
  · intro baked pd₁ hbake
    obtain ⟨swishtag, hnorm, hbake⟩ := bind_ok_iff.mp hbake
    rw [if_neg (by simp [hxml])] at hbake
    obtain ⟨s, hs, hbake⟩ := bind_ok_iff.mp hbake
    cases hs
    obtain ⟨pd₂, hundef, hbake⟩ := bind_ok_iff.mp hbake
    cases hbake
    exact (h swishtag hnorm).2 _ hundef

end Bake

/-! ## Invariants that do not look at the switches -/

/-- What an invariant has to survive inside a tag when neither the switches nor the current tag
matter to it: text, new names, and the stacks. -/
structure TextSteps (C : ParserData → XmlStr → Option XmlStr → Prop) (P : ParserData → Prop) :
    Prop where
  tag : ∀ pd tag, P pd → P { pd with tag }
  bumpWord : ∀ pd bumpWord, P pd → P { pd with bumpWord }
  ignoreContent : ∀ pd ignoreContent, P pd → P { pd with ignoreContent }
  characters : ∀ pd ch, P pd → P (bufferCharacters pd ch)
  autoMetaname : ∀ pd name pd', P pd → autoMetaname pd name = .ok pd' → P pd'
  autoProperty : ∀ pd name pd', P pd → autoProperty pd name = .ok pd' → P pd'
  push : ∀ pd raw tag pd', P pd → C pd raw tag → pushTags pd raw tag = .ok pd' → P pd'
  pop : ∀ pd raw pd', P pd → popTags pd raw = .ok pd' → P pd'

section TextSteps

variable {C : ParserData → XmlStr → Option XmlStr → Prop} {P : ParserData → Prop}
  {pd pd' : ParserData} {name : XmlStr}

theorem TextSteps.undefXmlTag (H : TextSteps C P) (hP : P pd)
    (h : undefXmlTag pd name = .ok pd') : P pd' := by
  cases undefXmlTag_switch h with
  | defined => exact hP
  | ignore | index => exact H.ignoreContent _ _ hP
  | auto _ _ hmeta => exact H.autoMetaname _ _ _ hP hmeta
  | autoall _ _ hmeta hprop => exact H.autoProperty _ _ _ (H.autoMetaname _ _ _ hP hmeta) hprop

theorem TextSteps.undefHtmlMeta (H : TextSteps C P) (hP : P pd)
    (h : undefHtmlMeta pd name = .ok pd') : P pd' := by
  cases undefHtmlMeta_switch h with
  | defined | index => exact hP
  | ignore => exact H.ignoreContent _ _ hP
  | auto _ hmeta => exact H.autoMetaname _ _ _ hP hmeta
  | autoall _ hmeta hprop => exact H.autoProperty _ _ _ (H.autoMetaname _ _ _ hP hmeta) hprop

theorem TextSteps.undefXmlAttr (H : TextSteps C P) {value : XmlStr} (hP : P pd)
    (h : undefXmlAttr pd name value = .ok pd') : P pd' := by
  cases undefXmlAttr_switch h with
  | defined | skipped => exact hP
  | auto _ _ hmeta => exact H.autoMetaname _ _ _ hP hmeta
  | autoall _ _ hmeta hprop => exact H.autoProperty _ _ _ (H.autoMetaname _ _ _ hP hmeta) hprop
  | index => exact H.bumpWord _ _ (H.characters _ value (H.bumpWord _ true hP))

theorem TextSteps.tagSteps (H : TextSteps C P) : TagSteps (fun _ _ => True) C P where
  tag := H.tag
  bumpWord := H.bumpWord
  characters := H.characters
  undefXmlAttr _ _ _ _ hP h := H.undefXmlAttr hP h
  undefXmlTag _ _ _ hP _ _ h := H.undefXmlTag hP h
  undefHtmlMeta _ _ _ hP h :=
    ⟨H.undefHtmlMeta hP h, H.ignoreContent _ _ (H.undefHtmlMeta hP h)⟩
  push := H.push
  pop := H.pop
  mono _ _ _ h _ _ := h

theorem TextSteps.mycomments (H : TextSteps C P) (hP : P pd) (cmt : XmlStr) :
    P (mycomments pd cmt) := by
  simp only [LibSwish3.mycomments]
  split
  · exact H.ignoreContent _ _ hP
  · split
    · exact H.ignoreContent _ _ hP
    · split
      · exact hP
      · exact H.bumpWord _ _ hP

end TextSteps

/-! ## Invariants that do not look at the buffers -/

/-- Text has been moved about: only the buffers, the stacks and the switches have changed. -/
structure Moves (pd pd' : ParserData) : Prop where
  self : pd'.self = pd.self
  config : pd'.config = pd.config
  analyzer : pd'.analyzer = pd.analyzer
  stash : pd'.stash = pd.stash
  docinfo : pd'.docinfo = pd.docinfo
  tokens : pd'.tokens = pd.tokens

/-- What an invariant has to survive when the buffers and the stacks do not matter to it either:
new names, and the tokens of a flush. -/
structure TokenSteps (P : ParserData → Prop) : Prop where
  moves : ∀ pd pd', P pd → Moves pd pd' → P pd'
  autoMetaname : ∀ pd name pd', P pd → autoMetaname pd name = .ok pd' → P pd'
  autoProperty : ∀ pd name pd', P pd → autoProperty pd name = .ok pd' → P pd'
  tokenize : ∀ pd metaname context pd', P pd → tokenizeBuffer pd metaname context = .ok pd' →
    P pd'

section TokenSteps

variable {P : ParserData → Prop} {pd pd' : ParserData} {metaname context raw : XmlStr}
  {tag : Option XmlStr}

theorem TokenSteps.flushBuffer (H : TokenSteps P) (hP : P pd)
    (h : flushBuffer pd metaname context = .ok pd') : P pd' := by
  obtain ⟨storedAs, -, h⟩ := bind_ok_iff.mp h
  obtain ⟨metanames₁, -, h⟩ := bind_ok_iff.mp h
  obtain ⟨metanames₂, -, h⟩ := bind_ok_iff.mp h
  obtain ⟨pd₁, htok, h⟩ := bind_ok_iff.mp h
  cases h
  refine H.moves pd₁ _ (H.tokenize _ _ _ _ ?_ htok) ⟨rfl, rfl, rfl, rfl, rfl, rfl⟩
  exact H.moves _ _ hP ⟨rfl, rfl, rfl, rfl, rfl, rfl⟩

theorem TokenSteps.flushHead (H : TokenSteps P) (hP : P pd) (h : flushHead pd = .ok pd') :
    P pd' := by
  obtain ⟨top, -, h⟩ := bind_ok_iff.mp h
  exact H.flushBuffer hP h

theorem TokenSteps.addStackToPropBuf (H : TokenSteps P) {baked : Option XmlStr} (hP : P pd)
    (h : addStackToPropBuf pd baked = .ok pd') : P pd' := by
  obtain ⟨properties, rfl⟩ := addStackToPropBuf_ok h
  exact H.moves _ _ hP ⟨rfl, rfl, rfl, rfl, rfl, rfl⟩

theorem TokenSteps.pushProperty (H : TokenSteps P) (hP : P pd)
    (h : pushProperty pd raw tag context = .ok pd') : P pd' := by
  unfold LibSwish3.pushProperty at h
  split at h
  · obtain ⟨pd₁, hadd, h⟩ := bind_ok_iff.mp h
    obtain ⟨baked, -, h⟩ := bind_ok_iff.mp h
    cases h
    exact H.moves _ _ (H.addStackToPropBuf hP hadd) ⟨rfl, rfl, rfl, rfl, rfl, rfl⟩
  · cases h
    exact hP

theorem TokenSteps.pushMetaname (H : TokenSteps P) (hP : P pd)
    (h : pushMetaname pd raw tag context = .ok pd') : P pd' := by
  unfold LibSwish3.pushMetaname at h
  split at h
  · obtain ⟨pd₁, hflush, h⟩ := bind_ok_iff.mp h
    obtain ⟨baked, -, h⟩ := bind_ok_iff.mp h
    cases h
    exact H.moves _ _ (H.flushHead hP hflush) ⟨rfl, rfl, rfl, rfl, rfl, rfl⟩
  · cases h
    exact hP

theorem TokenSteps.pushTags (H : TokenSteps P) (hP : P pd)
    (h : pushTags pd raw tag = .ok pd') : P pd' := by
  obtain ⟨top, -, h⟩ := bind_ok_iff.mp h
  obtain ⟨pd₁, hprop, h⟩ := bind_ok_iff.mp h
  refine H.pushMetaname (H.pushProperty ?_ hprop) h
  exact H.moves _ _ hP ⟨rfl, rfl, rfl, rfl, rfl, rfl⟩

theorem TokenSteps.popProperty (H : TokenSteps P) (hP : P pd)
    (h : popProperty pd raw = .ok pd') : P pd' := by
  obtain ⟨⟨st, propstack⟩, -, h⟩ := bind_ok_iff.mp h
  cases st with
  | none =>
      cases h
      exact H.moves _ _ hP ⟨rfl, rfl, rfl, rfl, rfl, rfl⟩
  | some st =>
      refine H.addStackToPropBuf ?_ h
      exact H.moves _ _ hP ⟨rfl, rfl, rfl, rfl, rfl, rfl⟩

theorem TokenSteps.popMetaname (H : TokenSteps P) (hP : P pd)
    (h : popMetaname pd raw = .ok pd') : P pd' := by
  obtain ⟨⟨st, metastack⟩, -, h⟩ := bind_ok_iff.mp h
  cases st with
  | none =>
      cases h
      exact H.moves _ _ hP ⟨rfl, rfl, rfl, rfl, rfl, rfl⟩
  | some st =>
      refine H.flushBuffer ?_ h
      exact H.moves _ _ hP ⟨rfl, rfl, rfl, rfl, rfl, rfl⟩

theorem TokenSteps.popTags (H : TokenSteps P) (hP : P pd) (h : popTags pd raw = .ok pd') :
    P pd' := by
  obtain ⟨pd₁, hprop, h⟩ := bind_ok_iff.mp h
  obtain ⟨pd₂, hmeta, h⟩ := bind_ok_iff.mp h
  have hP₂ := H.popMetaname (H.popProperty hP hprop) hmeta
  split at h
  · cases h
  · cases h
    exact H.moves _ _ hP₂ ⟨rfl, rfl, rfl, rfl, rfl, rfl⟩

theorem TokenSteps.textSteps (H : TokenSteps P) : TextSteps (fun _ _ _ => True) P where
  tag _ _ hP := H.moves _ _ hP ⟨rfl, rfl, rfl, rfl, rfl, rfl⟩
  bumpWord _ _ hP := H.moves _ _ hP ⟨rfl, rfl, rfl, rfl, rfl, rfl⟩
  ignoreContent _ _ hP := H.moves _ _ hP ⟨rfl, rfl, rfl, rfl, rfl, rfl⟩
  characters pd ch hP := by
    rw [bufferCharacters]
    split
    · exact hP
    · exact H.moves _ _ hP ⟨rfl, rfl, rfl, rfl, rfl, rfl⟩
  autoMetaname := H.autoMetaname
  autoProperty := H.autoProperty
  push _ _ _ _ hP _ hok := H.pushTags hP hok
  pop _ _ _ hP hok := H.popTags hP hok

end TokenSteps

/-! ## Names are never taken away -/

theorem grows_tagKept (c : Config) :
    TagKept (fun _ _ => True) (fun _ _ _ => True) fun pd => Grows c pd.config where
  calm _ _ h hcalm := h.trans hcalm.config
  undefXmlTag _ _ _ h _ _ hok := by
    obtain ⟨n, hcalm⟩ := undefXmlTag_calm hok
    exact h.trans hcalm.config
  undefHtmlMeta _ _ _ h hok := by
    obtain ⟨n, hcalm⟩ := undefHtmlMeta_calm hok
    exact ⟨h.trans hcalm.config, h.trans hcalm.config⟩
  push _ _ _ _ h _ hok := h.trans (pushTags_ok hok).2.2.2.config
  pop _ _ _ h hok := by
    obtain ⟨_, _, _, -, -, -, -, hcalm⟩ := popTags_ok hok
    exact h.trans hcalm.config
  mono _ _ _ h _ _ := h

section Free

variable {env : TagEnv} {pd : ParserData} {tag : XmlStr} {atts : Option Atts}
  {xmlnsPrefix : Option XmlStr}

theorem plainMeets_free : PlainMeets env (fun _ _ => True) (fun _ _ _ => True) pd tag
    xmlnsPrefix := ⟨fun _ _ _ => trivial, fun _ _ _ => trivial⟩

theorem startMeets_free : StartMeets env (fun _ _ => True) (fun _ _ _ => True) pd tag atts
    xmlnsPrefix := by
  refine ⟨fun swishtag _ => ⟨fun _ _ _ _ _ _ => plainMeets_free, fun _ => ⟨?_, ?_⟩⟩, ?_⟩
  · intro _ _ _ _ _ _ _ _ _ _ _ _ _
    exact plainMeets_free
  · intro _ _
    trivial
  · intro _ _ _
    trivial

theorem endMeets_free : EndMeets env (fun _ _ => True) pd tag xmlnsPrefix :=
  fun _ _ _ => trivial

end Free

end LibSwish3
