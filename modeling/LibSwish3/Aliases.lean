import LibSwish3.IncludedText
import LibSwish3.Nested
import LibSwish3.StackNames
import LibSwish3.WordCount

/-!
# Aliases hold no text

The text of a name with an `alias_for` is stored under the target.  The code follows one
`alias_for` only, where an element is flushed or ends; the two loops that hand a text to every
name on a stack follow none.  So text comes to an alias in two ways: as the target of another
alias, and on a stack, while something else is opened inside it.

## Main definitions

* `Unaliased`, `Resolved` — a name that is no alias, or an alias of one.
* `AliasFree` — nothing is stored under an alias.
* `PushesResolved`, `AliasesMet` — the steps that neither follow a chain nor open a name inside
  an alias.
* `run_aliasFree` — these keep the aliases empty.
-/

namespace LibSwish3

open Runs Tables

/-! ## Names and their targets -/

section Names

variable {α : Type} {aliasFor : α → CPtr XmlStr} {hash hash' : HashTable α}
  {nb nb' : NamedBuffer} {name : XmlStr}

/-- The name is no alias. -/
def Unaliased (aliasFor : α → CPtr XmlStr) (hash : HashTable α) (name : XmlStr) : Prop :=
  ∀ a, hash.lookup name = some a → aliasFor a = .null

/-- The target of the name, if it is an alias, is none. -/
def Resolved (aliasFor : α → CPtr XmlStr) (hash : HashTable α) (name : XmlStr) : Prop :=
  ∀ a target, hash.lookup name = some a → aliasFor a = .live target →
    Unaliased aliasFor hash target

/-- Nothing is stored under an alias. -/
def AliasesEmpty (aliasFor : α → CPtr XmlStr) (hash : HashTable α) (nb : NamedBuffer) : Prop :=
  ∀ k a, hash.lookup k = some a → aliasFor a ≠ .null → nb.content k = []

theorem Unaliased.extend (h : Unaliased aliasFor hash name)
    (hext : Extension (fun a => aliasFor a = .null) hash hash') :
    Unaliased aliasFor hash' name := by
  intro a hlook
  rcases hext.cases hlook with hold | hnull
  · exact h a hold
  · exact hnull

theorem Resolved.extend (h : Resolved aliasFor hash name)
    (hext : Extension (fun a => aliasFor a = .null) hash hash') :
    Resolved aliasFor hash' name := by
  intro a target hlook halias
  rcases hext.cases hlook with hold | hnull
  · exact (h a target hold halias).extend hext
  · rw [hnull] at halias
    cases halias

theorem AliasesEmpty.extend (h : AliasesEmpty aliasFor hash nb)
    (hext : Extension (fun a => aliasFor a = .null) hash hash') :
    AliasesEmpty aliasFor hash' nb := by
  intro k a hlook halias
  rcases hext.cases hlook with hold | hnull
  · exact h k a hold halias
  · exact absurd hnull halias

theorem AliasesEmpty.restrict (h : AliasesEmpty aliasFor hash' nb)
    (hext : Extension (fun a => aliasFor a = .null) hash hash') :
    AliasesEmpty aliasFor hash nb :=
  fun k a hlook => h k a (hext.retained k a hlook)

/-- What is added under a name that is no alias is under no alias. -/
theorem AliasesEmpty.nbAddStr (h : AliasesEmpty aliasFor hash nb)
    (hname : Unaliased aliasFor hash name) {str joiner : XmlStr} {cleanwsp autovivify : Bool}
    (hadd : nbAddStr nb name str joiner cleanwsp autovivify = .ok nb') :
    AliasesEmpty aliasFor hash nb' := by
  intro k a hlook halias
  have hne : k ≠ name := by
    rintro rfl
    exact halias (hname a hlook)
  rw [content_nbAddStr hadd k, if_neg fun hk => hne hk.1]
  exact h k a hlook halias

theorem AliasesEmpty.nbNew (h : AliasesEmpty aliasFor hash nb) (name : XmlStr) :
    AliasesEmpty aliasFor hash (nbNew nb name) := by
  rwa [AliasesEmpty, content_nbNew]

theorem AliasesEmpty.bufferConcat {nb2 : NamedBuffer} (h : AliasesEmpty aliasFor hash nb)
    (h2 : AliasesEmpty aliasFor hash nb2) :
    AliasesEmpty aliasFor hash (bufferConcat nb nb2) := by
  intro k a hlook halias
  have hnil : nb2.content k = [] := h2 k a hlook halias
  by_cases hk : k ∈ nb
  · rw [content_bufferConcat_of_mem hk, catBuffer_eq _ (by simp [hnil]), if_pos hnil]
    exact h k a hlook halias
  · exact content_bufferConcat_of_notMem hk

theorem aliasesEmpty_nbInit {β : Type} (hash : HashTable α) (confhash : HashTable β) :
    AliasesEmpty aliasFor hash (nbInit confhash) :=
  fun k _ _ _ => content_nbInit confhash k

end Names

/-! ## The parser -/

/-- Nothing is stored under an alias, and nothing on the stacks can lead there: the target of
each name is no alias, and below the top of a stack no name is one. -/
structure AliasFree (loc : Locale) (pd : ParserData) : Prop where
  builtIn : pd.analyzer.BuiltIn loc
  metanames : AliasesEmpty MetaName.aliasFor pd.config.metanames pd.metanames
  properties : AliasesEmpty Property.aliasFor pd.config.properties pd.properties
  tokens : ∀ t ∈ pd.tokens.tokens, t.metaname.aliasFor = .null
  metastack : ∀ t ∈ pd.metastack.tags, Resolved MetaName.aliasFor pd.config.metanames t.baked
  propstack : ∀ t ∈ pd.propstack.tags, Resolved Property.aliasFor pd.config.properties t.baked
  metaBelow : pd.config.flags.cascadeMetaContext = true → ∀ t ∈ pd.metastack.tags.tail,
    Unaliased MetaName.aliasFor pd.config.metanames t.baked
  propBelow : ∀ t ∈ pd.propstack.tags.tail, t.baked = Swish.domStr ∨
    Unaliased Property.aliasFor pd.config.properties t.baked
  defaultMetaname : Resolved MetaName.aliasFor pd.config.metanames Swish.defaultMetaname
  defaultCascade : pd.config.flags.cascadeMetaContext = true →
    Unaliased MetaName.aliasFor pd.config.metanames Swish.defaultMetaname
  sentinel : Resolved Property.aliasFor pd.config.properties Swish.domStr

/-- Where MetaNames cascade, the innermost one is no alias. -/
def HeadUnaliased (pd : ParserData) : Prop :=
  pd.config.flags.cascadeMetaContext = true → ∀ t ∈ pd.metastack.tags.head?,
    Unaliased MetaName.aliasFor pd.config.metanames t.baked

/-- A tag is pushed under a name whose target is no alias, and not inside an alias: inside an
alias of a Property, or, where MetaNames cascade, of a MetaName. -/
structure PushesResolved (pd : ParserData) (raw : XmlStr) (tag : Option XmlStr) : Prop where
  property : isKey pd.config.properties tag (domContext pd raw tag) →
    (∀ t ∈ pd.propstack.tags.head?, t.baked = Swish.domStr ∨
      Unaliased Property.aliasFor pd.config.properties t.baked) ∧
    ∀ baked, pushedName pd.config tag (domContext pd raw tag) = .ok baked →
      Resolved Property.aliasFor pd.config.properties baked
  metaname : isKey pd.config.metanames tag (domContext pd raw tag) →
    HeadUnaliased pd ∧ ∀ baked, pushedName pd.config tag (domContext pd raw tag) = .ok baked →
      Resolved MetaName.aliasFor pd.config.metanames baked

/-- Reading a text flushes under `swishtitle` too. -/
structure TitleResolved (pd : ParserData) : Prop where
  head : HeadUnaliased pd
  title : Resolved MetaName.aliasFor pd.config.metanames Swish.titleMetaname
  cascade : pd.config.flags.cascadeMetaContext = true →
    Unaliased MetaName.aliasFor pd.config.metanames Swish.titleMetaname

/-- The condition on an event, and on those of the documents it includes. -/
def AliasesMet (env : SaxEnv) : (fuel : Nat) → ParserData → SaxEvent → Prop :=
  DeepMeets env
    (fun fuel pd e =>
      EventMeets env (xincludeDeep env fuel) (fun _ _ => True) PushesResolved pd e ∧
      (e = .endDocument ∨ (includedBy env pd e).isSome → HeadUnaliased pd))
    TitleResolved (fun _ _ => True)

section AliasFree

variable {loc : Locale} {env : SaxEnv} {pd pd' : ParserData} {metaname context raw : XmlStr}
  {tag : Option XmlStr}

/-- Only text, the current tag and the switches have changed. -/
theorem AliasFree.congr (h : AliasFree loc pd) (hanalyzer : pd'.analyzer = pd.analyzer)
    (hconfig : pd'.config = pd.config) (hmetanames : pd'.metanames = pd.metanames)
    (hproperties : pd'.properties = pd.properties) (htokens : pd'.tokens = pd.tokens)
    (hmetastack : pd'.metastack = pd.metastack) (hpropstack : pd'.propstack = pd.propstack) :
    AliasFree loc pd' := by
  obtain ⟨h₁, h₂, h₃, h₄, h₅, h₆, h₇, h₈, h₉, h₁₀, h₁₁⟩ := h
  constructor <;>
    simp only [hanalyzer, hconfig, hmetanames, hproperties, htokens, hmetastack, hpropstack] <;>
    assumption

theorem metanameStoredAs_unaliased {c : Config} {storedAs : XmlStr}
    (h : Resolved MetaName.aliasFor c.metanames metaname)
    (hok : metanameStoredAs c metaname = .ok storedAs) :
    Unaliased MetaName.aliasFor c.metanames storedAs := by
  unfold metanameStoredAs at hok
  split at hok
  · cases hok
  · rename_i m hlook
    cases halias : m.aliasFor with
    | null =>
        rw [halias] at hok
        cases hok
        intro m' hlook'
        rw [← Option.some.inj (hlook.symm.trans hlook')]
        exact halias
    | live target =>
        rw [halias] at hok
        cases hok
        exact h m _ hlook halias
    | freed =>
        rw [halias] at hok
        cases hok

theorem propertyStoredAs_unaliased {c : Config} {name storedAs : XmlStr} {cleanwsp : Bool}
    (h : Resolved Property.aliasFor c.properties name)
    (hok : propertyStoredAs c name = .ok (storedAs, cleanwsp)) :
    Unaliased Property.aliasFor c.properties storedAs := by
  unfold propertyStoredAs at hok
  split at hok
  · cases hok
  · rename_i p hlook
    cases halias : p.aliasFor with
    | null =>
        rw [halias] at hok
        cases hok
        intro p' hlook'
        rw [← Option.some.inj (hlook.symm.trans hlook')]
        exact halias
    | live target =>
        rw [halias] at hok
        cases hok
        exact h p _ hlook halias
    | freed =>
        rw [halias] at hok
        cases hok

theorem cascadeMetas_aliasesEmpty {storedAs : XmlStr} {metanames metanames' : NamedBuffer}
    (h : AliasesEmpty MetaName.aliasFor pd.config.metanames metanames)
    (hstack : pd.config.flags.cascadeMetaContext = true → ∀ t ∈ pd.metastack.tags,
      Unaliased MetaName.aliasFor pd.config.metanames t.baked)
    (hok : cascadeMetas pd storedAs metanames = .ok metanames') :
    AliasesEmpty MetaName.aliasFor pd.config.metanames metanames' := by
  unfold cascadeMetas at hok
  split at hok
  · rename_i hcascade
    refine invariant_of_steps (I := AliasesEmpty MetaName.aliasFor pd.config.metanames) ?_ h
      (steps_of_forall (hstack hcascade)) hok
    intro nb t nb' hempty hplain hstep
    unfold cascadeStep at hstep
    split at hstep
    · cases hstep
      exact hempty
    · exact hempty.nbAddStr hplain hstep
  · cases hok
    exact h

theorem unaliased_listKept {m : Option MetaName} (hm : ∀ mn, m = some mn → mn.aliasFor = .null) :
    ListKept m context fun tl => ∀ t ∈ tl.tokens, t.metaname.aliasFor = .null where
  add tl token tokenLen tl' h hok := by
    unfold tokenListAddToken at hok
    split at hok
    · cases hok
    · split at hok
      · cases hok
      · rename_i mn
        cases hok
        intro t ht
        rcases List.mem_append.mp ht with ht | ht
        · exact h t ht
        · rw [List.mem_singleton.mp ht]
          exact hm mn rfl
  bump _ h := h

/-- Flushing stores under a name that is no alias. -/
theorem flushBuffer_aliasFree (h : AliasFree loc pd)
    (hname : Resolved MetaName.aliasFor pd.config.metanames metaname)
    (hstack : pd.config.flags.cascadeMetaContext = true → ∀ t ∈ pd.metastack.tags,
      Unaliased MetaName.aliasFor pd.config.metanames t.baked)
    (hok : flushBuffer pd metaname context = .ok pd') : AliasFree loc pd' := by
  obtain ⟨storedAs, hstored, hok⟩ := bind_ok_iff.mp hok
  obtain ⟨metanames₁, hadd, hok⟩ := bind_ok_iff.mp hok
  obtain ⟨metanames₂, hcascade, hok⟩ := bind_ok_iff.mp hok
  obtain ⟨pd₁, htok, hok⟩ := bind_ok_iff.mp hok
  have hplain := metanameStoredAs_unaliased hname hstored
  have hempty := cascadeMetas_aliasesEmpty (h.metanames.nbAddStr hplain hadd) hstack hcascade
  have h₀ : AliasFree loc { pd with metanames := metanames₂ } :=
    ⟨h.builtIn, hempty, h.properties, h.tokens, h.metastack, h.propstack, h.metaBelow,
      h.propBelow, h.defaultMetaname, h.defaultCascade, h.sentinel⟩
  have htokens : ∀ t ∈ pd₁.tokens.tokens, t.metaname.aliasFor = .null := by
    unfold tokenizeBuffer at htok
    split at htok
    · cases htok
      exact h.tokens
    · obtain ⟨⟨tokens, n⟩, hrun, htok⟩ := bind_ok_iff.mp htok
      cases htok
      obtain ⟨tokenizer, block, -, heq⟩ :=
        h.builtIn pd.tokens (cstr pd.metaBuf) (pd.config.metanames.lookup storedAs) context
      exact ((unaliased_listKept hplain).tokenize h.tokens (heq ▸ hrun)).1
  obtain ⟨tokens, nwords, rfl⟩ := tokenizeBuffer_ok htok
  cases hok
  exact ⟨h.builtIn, hempty, h.properties, htokens, h.metastack, h.propstack, h.metaBelow,
    h.propBelow, h.defaultMetaname, h.defaultCascade, h.sentinel⟩

/-- Flushing under the innermost MetaName, where that is allowed. -/
theorem AliasFree.stack (h : AliasFree loc pd) (hhead : HeadUnaliased pd)
    (hcascade : pd.config.flags.cascadeMetaContext = true) :
    ∀ t ∈ pd.metastack.tags, Unaliased MetaName.aliasFor pd.config.metanames t.baked := by
  intro t ht
  cases htags : pd.metastack.tags with
  | nil => simp [htags] at ht
  | cons top rest =>
      rw [htags] at ht
      rcases List.mem_cons.mp ht with rfl | ht
      · exact hhead hcascade t (by simp [htags])
      · exact h.metaBelow hcascade t (by simpa [htags] using ht)

theorem flushHead_aliasFree (h : AliasFree loc pd) (hhead : HeadUnaliased pd)
    (hok : flushHead pd = .ok pd') : AliasFree loc pd' := by
  obtain ⟨top, htop, hok⟩ := bind_ok_iff.mp hok
  have hmem : top ∈ pd.metastack.tags := List.mem_of_head? (TagStack.head_ok_iff.mp htop)
  exact flushBuffer_aliasFree h (h.metastack top hmem) (h.stack hhead) hok

theorem flushDefault_aliasFree (h : AliasFree loc pd) (hhead : HeadUnaliased pd)
    (hok : flushBuffer pd Swish.defaultMetaname context = .ok pd') : AliasFree loc pd' :=
  flushBuffer_aliasFree h h.defaultMetaname (h.stack hhead) hok

/-- The property buffer goes to names that are no aliases. -/
theorem addStackToPropBuf_aliasesEmpty {baked : Option XmlStr}
    (h : AliasesEmpty Property.aliasFor pd.config.properties pd.properties)
    (hbaked : ∀ k ∈ baked, Resolved Property.aliasFor pd.config.properties k)
    (hstack : ∀ t ∈ pd.propstack.tags, t.baked = Swish.domStr ∨
      Unaliased Property.aliasFor pd.config.properties t.baked)
    (hok : addStackToPropBuf pd baked = .ok pd') :
    AliasesEmpty Property.aliasFor pd.config.properties pd'.properties := by
  obtain ⟨⟨s, cleanwsp⟩, hadd, hok⟩ := bind_ok_iff.mp hok
  obtain ⟨⟨properties, propBuf⟩, hrun, hok⟩ := bind_ok_iff.mp hok
  cases hok
  have hfirst : AliasesEmpty Property.aliasFor pd.config.properties s.1 := by
    cases baked with
    | none =>
        cases hadd
        exact h
    | some name =>
        obtain ⟨⟨storedAs, cleanwsp'⟩, hstored, hadd⟩ := bind_ok_iff.mp hadd
        obtain ⟨nb, hnb, hadd⟩ := bind_ok_iff.mp hadd
        cases hadd
        exact h.nbAddStr (propertyStoredAs_unaliased (hbaked name rfl) hstored) hnb
  refine invariant_of_steps
    (I := fun s : NamedBuffer × XmlStr =>
      AliasesEmpty Property.aliasFor pd.config.properties s.1) ?_ hfirst
    (steps_of_forall hstack) hrun
  intro s t s' hempty hplain hstep
  unfold propStackStep at hstep
  split at hstep
  · cases hstep
    exact hempty
  · rename_i hne
    obtain ⟨nb, hnb, hstep⟩ := bind_ok_iff.mp hstep
    cases hstep
    exact hempty.nbAddStr (hplain.resolve_left hne) hnb

/-- Below the top there are only Properties that are no aliases. -/
theorem AliasFree.propStack (h : AliasFree loc pd)
    (hhead : ∀ t ∈ pd.propstack.tags.head?, t.baked = Swish.domStr ∨
      Unaliased Property.aliasFor pd.config.properties t.baked) :
    ∀ t ∈ pd.propstack.tags, t.baked = Swish.domStr ∨
      Unaliased Property.aliasFor pd.config.properties t.baked := by
  intro t ht
  cases htags : pd.propstack.tags with
  | nil => simp [htags] at ht
  | cons top rest =>
      rw [htags] at ht
      rcases List.mem_cons.mp ht with rfl | ht
      · exact hhead t (by simp [htags])
      · exact h.propBelow t (by simpa [htags] using ht)

theorem pushProperty_aliasFree {domstack : TagStack} (h : AliasFree loc pd)
    (hpush : isKey pd.config.properties tag context →
      (∀ t ∈ pd.propstack.tags.head?, t.baked = Swish.domStr ∨
        Unaliased Property.aliasFor pd.config.properties t.baked) ∧
      ∀ baked, pushedName pd.config tag context = .ok baked →
        Resolved Property.aliasFor pd.config.properties baked)
    (hok : pushProperty { pd with domstack } raw tag context = .ok pd') :
    AliasFree loc pd' ∧ pd'.config = pd.config ∧ pd'.metastack = pd.metastack := by
  unfold pushProperty at hok
  split at hok
  · rename_i hkey
    obtain ⟨hhead, hname⟩ := hpush hkey
    have hstack := h.propStack hhead
    obtain ⟨pd₁, hadd, hok⟩ := bind_ok_iff.mp hok
    have hempty := addStackToPropBuf_aliasesEmpty (by exact h.properties) (fun _ h => by cases h)
      (by exact hstack) hadd
    obtain ⟨properties, rfl⟩ := addStackToPropBuf_ok hadd
    obtain ⟨baked, hbaked, hok⟩ := bind_ok_iff.mp hok
    cases hok
    refine ⟨⟨h.builtIn, h.metanames, hempty, h.tokens, h.metastack, ?_, h.metaBelow, hstack,
      h.defaultMetaname, h.defaultCascade, h.sentinel⟩, rfl, rfl⟩
    intro t ht
    rcases List.mem_cons.mp ht with rfl | ht
    · exact hname baked hbaked
    · exact h.propstack t ht
  · cases hok
    exact ⟨h.congr rfl rfl rfl rfl rfl rfl rfl, rfl, rfl⟩

theorem pushMetaname_aliasFree (h : AliasFree loc pd)
    (hpush : isKey pd.config.metanames tag context →
      HeadUnaliased pd ∧ ∀ baked, pushedName pd.config tag context = .ok baked →
        Resolved MetaName.aliasFor pd.config.metanames baked)
    (hok : pushMetaname pd raw tag context = .ok pd') : AliasFree loc pd' := by
  unfold pushMetaname at hok
  split at hok
  · rename_i hkey
    obtain ⟨hhead, hname⟩ := hpush hkey
    obtain ⟨pd₁, hflush, hok⟩ := bind_ok_iff.mp hok
    have h₁ := flushHead_aliasFree h hhead hflush
    obtain ⟨baked, hbaked, hok⟩ := bind_ok_iff.mp hok
    cases hok
    have hstack : pd₁.metastack = pd.metastack := (flushHead_calm hflush).metastack
    have hconfig : pd₁.config = pd.config := flushHead_config hflush
    rw [hconfig] at hbaked
    refine ⟨h₁.builtIn, h₁.metanames, h₁.properties, h₁.tokens, ?_, h₁.propstack, ?_,
      h₁.propBelow, h₁.defaultMetaname, h₁.defaultCascade, h₁.sentinel⟩
    · intro t ht
      rcases List.mem_cons.mp ht with rfl | ht
      · rw [hconfig]
        exact hname baked hbaked
      · exact h₁.metastack t ht
    · rw [hconfig]
      show _ → ∀ t ∈ pd₁.metastack.tags, _
      rw [hstack]
      exact h.stack hhead
  · cases hok
    exact h

theorem pushTags_aliasFree (h : AliasFree loc pd) (hpush : PushesResolved pd raw tag)
    (hok : pushTags pd raw tag = .ok pd') : AliasFree loc pd' := by
  obtain ⟨top, htop, hok⟩ := bind_ok_iff.mp hok
  cases htop
  obtain ⟨pd₁, hprop, hok⟩ := bind_ok_iff.mp hok
  obtain ⟨h₁, hconfig, hmetastack⟩ := pushProperty_aliasFree h hpush.property hprop
  refine pushMetaname_aliasFree h₁ ?_ hok
  rw [hconfig]
  intro hkey
  obtain ⟨hhead, hname⟩ := hpush.metaname hkey
  refine ⟨?_, hname⟩
  rw [HeadUnaliased]
  rw [hconfig, hmetastack]
  exact hhead

/-- What is left when a stack is popped was below the top, unless nothing was popped. -/
theorem popOnMatch_cases {stack stack' : TagStack} {st : Option Tag}
    (h : stack.popOnMatch raw = .ok (st, stack')) :
    (st = none ∧ stack' = stack) ∨
      ∃ top, st = some top ∧ top ∈ stack.tags ∧ ∀ t ∈ stack'.tags, t ∈ stack.tags.tail := by
  obtain ⟨top, -, h⟩ := bind_ok_iff.mp h
  split at h
  · unfold TagStack.pop at h
    cases htags : stack.tags with
    | nil =>
        rw [htags] at h
        cases h
        exact .inl ⟨rfl, rfl⟩
    | cons tag rest =>
        simp only [htags] at h
        split at h
        · cases h
          exact .inr ⟨tag, rfl, by simp, fun t ht => ht⟩
        · cases h
          exact .inr ⟨tag, rfl, by simp, fun t ht => by simp at ht⟩
  · cases h
    exact .inl ⟨rfl, rfl⟩

theorem popProperty_aliasFree (h : AliasFree loc pd) (hok : popProperty pd raw = .ok pd') :
    AliasFree loc pd' := by
  obtain ⟨⟨st, propstack⟩, hpop, hok⟩ := bind_ok_iff.mp hok
  rcases popOnMatch_cases hpop with ⟨rfl, rfl⟩ | ⟨top, rfl, htop, hrest⟩
  · cases hok
    exact h
  · have hstack : ∀ t ∈ propstack.tags, t.baked = Swish.domStr ∨
        Unaliased Property.aliasFor pd.config.properties t.baked :=
      fun t ht => h.propBelow t (hrest t ht)
    have hempty := addStackToPropBuf_aliasesEmpty (by exact h.properties)
      (fun k hk => by rw [← Option.some.inj hk]; exact h.propstack top htop) (by exact hstack) hok
    obtain ⟨properties, rfl⟩ := addStackToPropBuf_ok hok
    refine ⟨h.builtIn, h.metanames, hempty, h.tokens, h.metastack, ?_, h.metaBelow, ?_,
      h.defaultMetaname, h.defaultCascade, h.sentinel⟩
    · exact fun t ht => h.propstack t (List.mem_of_mem_tail (hrest t ht))
    · exact fun t ht => hstack t (List.mem_of_mem_tail ht)

theorem popMetaname_aliasFree (h : AliasFree loc pd) (hok : popMetaname pd raw = .ok pd') :
    AliasFree loc pd' := by
  obtain ⟨⟨st, metastack⟩, hpop, hok⟩ := bind_ok_iff.mp hok
  rcases popOnMatch_cases hpop with ⟨rfl, rfl⟩ | ⟨top, rfl, htop, hrest⟩
  · cases hok
    exact h
  · have h₀ : AliasFree loc { pd with metastack } :=
      ⟨h.builtIn, h.metanames, h.properties, h.tokens,
        fun t ht => h.metastack t (List.mem_of_mem_tail (hrest t ht)), h.propstack,
        fun hc t ht => h.metaBelow hc t (hrest t (List.mem_of_mem_tail ht)), h.propBelow,
        h.defaultMetaname, h.defaultCascade, h.sentinel⟩
    exact flushBuffer_aliasFree h₀ (h.metastack top htop)
      (fun hc t ht => h.metaBelow hc t (hrest t ht)) hok

theorem popTags_aliasFree (h : AliasFree loc pd) (hok : popTags pd raw = .ok pd') :
    AliasFree loc pd' := by
  obtain ⟨pd₁, hprop, hok⟩ := bind_ok_iff.mp hok
  obtain ⟨pd₂, hmeta, hok⟩ := bind_ok_iff.mp hok
  have h₂ := popMetaname_aliasFree (popProperty_aliasFree h hprop) hmeta
  split at hok
  · cases hok
  · cases hok
    exact h₂.congr rfl rfl rfl rfl rfl rfl rfl

/-- Names have been added to the config, and nothing under the old aliases. -/
theorem AliasFree.extend (h : AliasFree loc pd) (hanalyzer : pd'.analyzer = pd.analyzer)
    (hextends : Extends pd.config pd'.config)
    (hmetanames : AliasesEmpty MetaName.aliasFor pd.config.metanames pd'.metanames)
    (hproperties : AliasesEmpty Property.aliasFor pd.config.properties pd'.properties)
    (htokens : ∀ t ∈ pd'.tokens.tokens, t.metaname.aliasFor = .null)
    (hmetastack : pd'.metastack = pd.metastack) (hpropstack : pd'.propstack = pd.propstack) :
    AliasFree loc pd' where
  builtIn := by
    rw [hanalyzer]
    exact h.builtIn
  metanames := hmetanames.extend hextends.metanames
  properties := hproperties.extend hextends.properties
  tokens := htokens
  metastack := by
    rw [hmetastack]
    exact fun t ht => (h.metastack t ht).extend hextends.metanames
  propstack := by
    rw [hpropstack]
    exact fun t ht => (h.propstack t ht).extend hextends.properties
  metaBelow := by
    rw [hmetastack, hextends.cascade]
    exact fun hc t ht => (h.metaBelow hc t ht).extend hextends.metanames
  propBelow := by
    rw [hpropstack]
    exact fun t ht => (h.propBelow t ht).imp_right fun hplain => hplain.extend hextends.properties
  defaultMetaname := h.defaultMetaname.extend hextends.metanames
  defaultCascade := by
    rw [hextends.cascade]
    exact fun hc => (h.defaultCascade hc).extend hextends.metanames
  sentinel := h.sentinel.extend hextends.properties

theorem aliasFree_textSteps : TextSteps PushesResolved (AliasFree loc) where
  tag _ _ h := h.congr rfl rfl rfl rfl rfl rfl rfl
  bumpWord _ _ h := h.congr rfl rfl rfl rfl rfl rfl rfl
  ignoreContent _ _ h := h.congr rfl rfl rfl rfl rfl rfl rfl
  characters pd ch h := by
    rw [bufferCharacters]
    split
    · exact h
    · exact h.congr rfl rfl rfl rfl rfl rfl rfl
  autoMetaname _ _ _ h hok := by
    obtain ⟨config, hextends, -, rfl⟩ := autoMetaname_ok hok
    exact h.extend rfl hextends (h.metanames.nbNew _) h.properties h.tokens rfl rfl
  autoProperty _ _ _ h hok := by
    rcases autoProperty_ok hok with rfl | ⟨config, hextends, -, -, rfl⟩
    · exact h
    · exact h.extend rfl hextends h.metanames (h.properties.nbNew _) h.tokens rfl rfl
  push _ _ _ _ h hpush hok := pushTags_aliasFree h hpush hok
  pop _ _ _ h hok := popTags_aliasFree h hok

theorem AliasFree.pushMeta (h : AliasFree loc pd) (hhead : HeadUnaliased pd) {name : XmlStr}
    (hname : Resolved MetaName.aliasFor pd.config.metanames name) :
    AliasFree loc { pd with metastack := pd.metastack.push name name Swish.domChar } := by
  refine ⟨h.builtIn, h.metanames, h.properties, h.tokens, ?_, h.propstack, h.stack hhead,
    h.propBelow, h.defaultMetaname, h.defaultCascade, h.sentinel⟩
  intro t ht
  rcases List.mem_cons.mp ht with rfl | ht
  · exact hname
  · exact h.metastack t ht

/-- Reading a text under a name that cascades as it should. -/
theorem AliasFree.readText (h : AliasFree loc pd) (hhead : HeadUnaliased pd) {name : XmlStr}
    (hname : Resolved MetaName.aliasFor pd.config.metanames name)
    (hcascade : pd.config.flags.cascadeMetaContext = true →
      Unaliased MetaName.aliasFor pd.config.metanames name) (ch : XmlStr)
    (hok : flushBuffer (bufferCharacters
      { pd with metastack := pd.metastack.push name name Swish.domChar } ch) name context =
        .ok pd') :
    AliasFree loc pd' ∧ HeadUnaliased pd' ∧ pd'.config = pd.config := by
  have hbuffered := aliasFree_textSteps.characters _ ch (h.pushMeta hhead hname)
  have hconfig := bufferCharacters_config
    { pd with metastack := pd.metastack.push name name Swish.domChar } ch
  have hmetastack := (bufferCharacters_calm
    { pd with metastack := pd.metastack.push name name Swish.domChar } ch).metastack
  have hstack : pd.config.flags.cascadeMetaContext = true →
      ∀ t ∈ (pd.metastack.push name name Swish.domChar).tags,
        Unaliased MetaName.aliasFor pd.config.metanames t.baked := by
    intro hc t ht
    rcases List.mem_cons.mp ht with rfl | ht
    · exact hcascade hc
    · exact h.stack hhead hc t ht
  have hconfig' : pd'.config = pd.config := (flushBuffer_config hok).trans hconfig
  refine ⟨flushBuffer_aliasFree hbuffered ?_ ?_ hok, ?_, hconfig'⟩
  · rw [hconfig]
    exact hname
  · rw [hconfig, hmetastack]
    exact hstack
  · intro hc t ht
    rw [hconfig'] at hc ⊢
    have hsame : pd'.metastack = pd.metastack.push name name Swish.domChar :=
      (flushBuffer_calm hok).metastack.trans hmetastack
    rw [hsame] at ht
    exact hstack hc t (List.mem_of_head? ht)

theorem txtParser_aliasFree {buffer : XmlStr} (h : AliasFree loc pd) (htitle : TitleResolved pd)
    (hok : txtParser env pd buffer = .ok pd') : AliasFree loc pd' := by
  unfold txtParser at hok
  split at hok
  · cases hok
    exact h
  · obtain ⟨pd₁, hflush, hok⟩ := bind_ok_iff.mp hok
    obtain ⟨h₁, hhead₁, hconfig⟩ :=
      h.readText htitle.head h.defaultMetaname h.defaultCascade _ hflush
    refine (h₁.readText hhead₁ ?_ ?_ _ hok).1
    · rw [hconfig]
      exact htitle.title
    · rw [hconfig]
      exact htitle.cascade

/-- Two parsers without text under an alias merge into one. -/
theorem mergeChild_aliasFree {parent child merged : ParserData} (h : AliasFree loc parent)
    (hchild : AliasFree loc child) (hextends : Extends parent.config child.config)
    (hok : mergeChild parent child = .ok merged) : AliasFree loc merged := by
  obtain ⟨tokens, hrun, hok⟩ := bind_ok_iff.mp hok
  cases hok
  refine h.extend rfl hextends
    (h.metanames.bufferConcat (hchild.metanames.restrict hextends.metanames))
    (h.properties.bufferConcat (hchild.properties.restrict hextends.properties)) ?_ rfl rfl
  obtain ⟨us, hus, hentries⟩ := run_tokenListAddToken hrun
  intro t ht
  rw [show _ = parent.tokens.tokens ++ us from hus] at ht
  rcases List.mem_append.mp ht with ht | ht
  · exact h.tokens t ht
  · have hentry : t.entry ∈ child.tokens.tokens.map Token.entry := by
      rw [← hentries]
      exact List.mem_map_of_mem ht
    obtain ⟨u, hu, heq⟩ := List.mem_map.mp hentry
    have hmeta : u.metaname = t.metaname := congrArg TokenEntry.metaname heq
    rw [← hmeta]
    exact hchild.tokens u hu

theorem aliasFree_initChildData (h : AliasFree loc pd) (docinfo : DocInfo) :
    AliasFree loc (initChildData pd docinfo) where
  builtIn := h.builtIn
  metanames := aliasesEmpty_nbInit _ _
  properties := aliasesEmpty_nbInit _ _
  tokens _ ht := absurd ht (by simp [initChildData, initParserData, TokenList.init])
  metastack t ht := by
    rw [List.mem_singleton.mp ht]
    exact h.defaultMetaname
  propstack t ht := by
    rw [List.mem_singleton.mp ht]
    exact h.sentinel
  metaBelow _ _ ht := absurd ht (by simp [initChildData, initParserData, TagStack.empty])
  propBelow _ ht := absurd ht (by simp [initChildData, initParserData, TagStack.empty])
  defaultMetaname := h.defaultMetaname
  defaultCascade := h.defaultCascade
  sentinel := h.sentinel

theorem aliasFree_deepRule : DeepRule env
    (fun fuel pd e =>
      EventMeets env (xincludeDeep env fuel) (fun _ _ => True) PushesResolved pd e ∧
      (e = .endDocument ∨ (includedBy env pd e).isSome → HeadUnaliased pd))
    TitleResolved (fun _ _ => True) (AliasFree loc) (fun _ => True) where
  fails _ _ := trivial
  size _ _ _ h := h.congr rfl rfl rfl rfl rfl rfl rfl
  stash _ _ h := h.congr rfl rfl rfl rfl rfl rfl rfl
  child _ docinfo h := aliasFree_initChildData h docinfo
  flush _ pd _ _ h hE hfound := by
    have hhead : HeadUnaliased pd := hE.2 (.inr (by rw [hfound]; rfl))
    have h' : AliasFree loc { pd with stash := some pd.self } := h.congr rfl rfl rfl rfl rfl rfl rfl
    exact ⟨fun _ hok => flushHead_aliasFree h' hhead hok, fun _ _ => trivial⟩
  text _ _ h hT := ⟨fun _ hok => txtParser_aliasFree h hT hok, fun _ _ => trivial⟩
  merge _ _ _ h hchild _ hextends hok := mergeChild_aliasFree h hchild hextends hok
  event _ pd _ h hE hx := by
    refine ⟨fun _ hok => ?_, fun _ _ => trivial⟩
    refine aliasFree_textSteps.saxEvent ?_ ?_ h hE.1 hok
    · exact fun uri isText pd' hfound hinclude => (hx uri isText hfound).returns pd' hinclude
    · exact fun _ hend hflush => flushDefault_aliasFree h (hE.2 (.inl hend)) hflush

end AliasFree

/-! ## The result -/

/-- The names the parser starts with lead to no alias. -/
structure StartsResolved (config : Config) : Prop where
  defaultMetaname : Resolved MetaName.aliasFor config.metanames Swish.defaultMetaname
  cascade : config.flags.cascadeMetaContext = true →
    Unaliased MetaName.aliasFor config.metanames Swish.defaultMetaname
  sentinel : Resolved Property.aliasFor config.properties Swish.domStr

section Result

variable {loc : Locale} {env : SaxEnv} {fuel : Nat} {config : Config} {analyzer : Analyzer}
  {docinfo : DocInfo} {isHtml : Bool} {events : List SaxEvent} {pd : ParserData}

theorem aliasFree_initParserData (hbuiltin : analyzer.BuiltIn loc)
    (hstart : StartsResolved config) :
    AliasFree loc { initParserData config analyzer docinfo with isHtml } where
  builtIn := hbuiltin
  metanames := aliasesEmpty_nbInit _ _
  properties := aliasesEmpty_nbInit _ _
  tokens _ ht := absurd ht (by simp [initParserData, TokenList.init])
  metastack t ht := by
    rw [List.mem_singleton.mp ht]
    exact hstart.defaultMetaname
  propstack t ht := by
    rw [List.mem_singleton.mp ht]
    exact hstart.sentinel
  metaBelow _ _ ht := absurd ht (by simp [initParserData, TagStack.empty])
  propBelow _ ht := absurd ht (by simp [initParserData, TagStack.empty])
  defaultMetaname := hstart.defaultMetaname
  defaultCascade := hstart.cascade
  sentinel := hstart.sentinel

/-- Where every name that is pushed resolves in one step and nothing is opened inside an alias,
no alias holds text, no token is of one, and the names on the stacks store under none. -/
theorem run_aliasFree (hbuiltin : analyzer.BuiltIn loc) (hstart : StartsResolved config)
    (hmeets : Steps (saxStep env fuel) (AliasesMet env fuel)
      { initParserData config analyzer docinfo with isHtml } events)
    (hrun : run (saxStep env fuel) { initParserData config analyzer docinfo with isHtml } events =
      .ok pd) :
    AliasesEmpty MetaName.aliasFor pd.config.metanames pd.metanames ∧
    AliasesEmpty Property.aliasFor pd.config.properties pd.properties ∧
    (∀ t ∈ pd.tokens.tokens, t.metaname.aliasFor = .null) ∧
    (∀ t ∈ pd.metastack.tags, ∀ storedAs, metanameStoredAs pd.config t.baked = .ok storedAs →
      Unaliased MetaName.aliasFor pd.config.metanames storedAs) ∧
    ∀ t ∈ pd.propstack.tags, ∀ storedAs cleanwsp,
      propertyStoredAs pd.config t.baked = .ok (storedAs, cleanwsp) →
      Unaliased Property.aliasFor pd.config.properties storedAs := by
  have hended := DeepRule.run aliasFree_deepRule (aliasFree_initParserData hbuiltin hstart) hmeets
  have h := hended.returns pd hrun
  exact ⟨h.metanames, h.properties, h.tokens,
    fun t ht _ hok => metanameStoredAs_unaliased (h.metastack t ht) hok,
    fun t ht _ _ hok => propertyStoredAs_unaliased (h.propstack t ht) hok⟩

end Result

/-! ## An element inside an alias -/

/-- `<swish><PropertyNames><a alias_for="swishdescription"/></PropertyNames></swish>` -/
def aliasA : Reader where
  nodes := [startNode Swish.headerRoot [], startNode Swish.propSection [],
    startNode (lit "a") [⟨none, lit "alias_for", Swish.propDescription⟩],
    endNode Swish.propSection, endNode Swish.headerRoot]
  complete := true
  text_not_blank := by decide

/-- A document that begins with `<a>x<swishdescription>` -/
def insideAlias : List SaxEvent :=
  [.startElementNs (lit "a") none none [], .characters (lit "x"),
    .startElementNs Swish.propDescription none none []]

/-- The config of `aliasA`, and the parser behind `insideAlias`. -/
private def aliasRun : Swish (Config × ParserData) := do
  let config ← mergeFiles (.oneFile aliasA) 1 (configSetDefault (lit "C")) [lit "a.xml"]
  let pd ← run (saxStep .alone 0)
    (initParserData config (.ofLibrary .posix 256 1) docinfoInit) insideAlias
  pure (config, pd)

/-- The alias `a` is on the stack when `swishdescription` is opened, and gets the text. -/
theorem run_fills_alias :
    ¬ ∀ (loc : Locale) henv hfuel lcCtype filenames config env fuel analyzer docinfo events pd,
      analyzer.BuiltIn loc →
      mergeFiles henv hfuel (configSetDefault lcCtype) filenames = .ok config →
      run (saxStep env fuel) (initParserData config analyzer docinfo) events = .ok pd →
      AliasesEmpty MetaName.aliasFor pd.config.metanames pd.metanames ∧
        AliasesEmpty Property.aliasFor pd.config.properties pd.properties ∧
        ∀ t ∈ pd.tokens.tokens, t.metaname.aliasFor = .null := by
  intro h
  have heval : aliasRun.toOption.map (fun s =>
      decide ((s.2.config.properties.lookup (lit "a")).map Property.aliasFor =
          some (.live Swish.propDescription) ∧
        s.2.properties.content (lit "a") = lit "x")) = some true := by
    decide +kernel
  obtain ⟨⟨config, pd⟩, hok, hf⟩ := exists_ok_of_map heval
  obtain ⟨hlook, htext⟩ := of_decide_eq_true hf
  obtain ⟨config', hmerge, hok⟩ := bind_ok_iff.mp hok
  obtain ⟨pd', hrun, hok⟩ := bind_ok_iff.mp hok
  cases hok
  obtain ⟨prop, hprop, halias⟩ := Option.map_eq_some_iff.mp hlook
  obtain ⟨-, hempty, -⟩ := h .posix _ _ _ _ _ _ _ _ _ _ _ (Analyzer.ofLibrary_builtIn _ _ _)
    hmerge hrun
  have hnil := hempty (lit "a") prop hprop (by rw [halias]; simp)
  exact absurd (htext.symm.trans hnil) (by decide)

/-! ## Text under an alias -/

/-- `b` is an alias of `swishtitle` among the MetaNames, and of `swishdescription` among the
Properties. -/
def aliasB : Reader where
  nodes := [startNode Swish.headerRoot [], startNode Swish.metaSection [],
    startNode (lit "b") [⟨none, lit "id", lit "20"⟩, ⟨none, lit "alias_for", Swish.titleMetaname⟩],
    endNode Swish.metaSection,
    startNode Swish.propSection [],
    startNode (lit "b")
      [⟨none, lit "id", lit "20"⟩, ⟨none, lit "alias_for", Swish.propDescription⟩],
    endNode Swish.propSection, endNode Swish.headerRoot]
  complete := true
  text_not_blank := by decide

/-- The default config with these aliases. -/
def aliasBConfig : Config :=
  let c := configSetDefault (lit "C")
  let metaname : MetaName :=
    { metanameInit (lit "b") with id := 20, aliasFor := .live Swish.titleMetaname }
  let prop : Property :=
    { propertyInit (lit "b") with id := 20, aliasFor := .live Swish.propDescription }
  { c with
    metanames := c.metanames.insert (lit "b") metaname
    properties := c.properties.insert (lit "b") prop }

theorem mergeFiles_aliasB : mergeFiles (.oneFile aliasB) 1 (configSetDefault (lit "C"))
    [lit "b.xml"] = .ok aliasBConfig := rfl
/-- `<b>x</b>` -/
def underAlias : List SaxEvent :=
  [.startElementNs (lit "b") none none [], .characters (lit "x"), .endElementNs (lit "b") none]

theorem metaname_resolved_aliasB (k : XmlStr) :
    Resolved MetaName.aliasFor aliasBConfig.metanames k := by
  have halias : Each (fun _ m => m.aliasFor = .null ∨ m.aliasFor = .live Swish.titleMetaname)
      aliasBConfig.metanames := by decide +kernel
  have htitle : Each (fun k m => k = Swish.titleMetaname → m.aliasFor = .null)
      aliasBConfig.metanames := by decide +kernel
  intro m target hm hlive m' hm'
  rcases halias k m hm with hnull | hsame
  · cases hnull.symm.trans hlive
  · cases hsame.symm.trans hlive
    exact htitle _ m' hm' rfl

theorem property_resolved_aliasB (k : XmlStr) :
    Resolved Property.aliasFor aliasBConfig.properties k := by
  have halias : Each (fun _ p => p.aliasFor = .null ∨ p.aliasFor = .live Swish.propDescription)
      aliasBConfig.properties := by decide +kernel
  have htarget : Each (fun k p => k = Swish.propDescription → p.aliasFor = .null)
      aliasBConfig.properties := by decide +kernel
  intro p target hp hlive p' hp'
  rcases halias k p hp with hnull | hsame
  · cases hnull.symm.trans hlive
  · cases hsame.symm.trans hlive
    exact htarget _ p' hp' rfl

/-- The text under the alias goes to what it stands for. -/
theorem run_aliasFree_aliasB : ∃ pd,
    mergeFiles (.oneFile aliasB) 1 (configSetDefault (lit "C")) [lit "b.xml"] = .ok aliasBConfig ∧
    run (saxStep .alone 0)
        (initParserData aliasBConfig (.ofLibrary .posix 256 1) docinfoInit) underAlias = .ok pd ∧
      pd.properties.content Swish.propDescription = lit "x" ∧
      AliasesEmpty MetaName.aliasFor pd.config.metanames pd.metanames ∧
      AliasesEmpty Property.aliasFor pd.config.properties pd.properties ∧
      (∀ t ∈ pd.tokens.tokens, t.metaname.aliasFor = .null) ∧
      (∀ t ∈ pd.metastack.tags, ∀ storedAs, metanameStoredAs pd.config t.baked = .ok storedAs →
        Unaliased MetaName.aliasFor pd.config.metanames storedAs) ∧
      ∀ t ∈ pd.propstack.tags, ∀ storedAs cleanwsp,
        propertyStoredAs pd.config t.baked = .ok (storedAs, cleanwsp) →
        Unaliased Property.aliasFor pd.config.properties storedAs := by
  have htext : (run (saxStep .alone 0)
      (initParserData aliasBConfig (.ofLibrary .posix 256 1) docinfoInit) underAlias).toOption.map
        (·.properties.content Swish.propDescription) = some (lit "x") := by
    decide +kernel
  obtain ⟨pd, hrun, htext⟩ := exists_ok_of_map htext
  have hstart : StartsResolved aliasBConfig :=
    ⟨metaname_resolved_aliasB _, fun hcascade => absurd hcascade (by decide),
      property_resolved_aliasB _⟩
  have hmeets : Steps (saxStep .alone 0) (AliasesMet .alone 0)
      (initParserData aliasBConfig (.ofLibrary .posix 256 1) docinfoInit) underAlias := by
    refine steps_cons_iff.mpr ⟨⟨?_, ?_⟩, fun pd₁ _ => steps_cons_iff.mpr ⟨⟨trivial, ?_⟩,
      fun pd₂ _ => steps_cons_iff.mpr ⟨⟨fun _ _ _ => trivial, ?_⟩, fun _ _ => steps_nil⟩⟩⟩
    · intro pd₁ hinclude
      cases hinclude
      refine startMeets_of_none rfl fun swishtag hnorm => ⟨trivial, fun pd₂ hundef => ?_⟩
      cases hnorm
      cases hundef
      exact ⟨fun _ => ⟨fun _ ht => .inl (by cases ht; rfl), fun _ _ => property_resolved_aliasB _⟩,
        fun _ => ⟨fun hcascade => absurd hcascade (by decide),
          fun _ _ => metaname_resolved_aliasB _⟩⟩
    all_goals rintro (hend | hsome)
    all_goals first | cases hend | cases hsome
  exact ⟨pd, mergeFiles_aliasB, hrun, htext,
    run_aliasFree (Analyzer.ofLibrary_builtIn _ _ _) hstart hmeets hrun⟩

end LibSwish3
