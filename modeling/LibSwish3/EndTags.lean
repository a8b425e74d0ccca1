import LibSwish3.AppendCounts
import LibSwish3.AttributeOrder
import LibSwish3.PlainTags
import LibSwish3.PropertyBuffers

/-!
# End tags

`close_tag` bakes the name of its element again, but it does not know the attributes.  So where
the start tag was looked up under a name with class attributes in it, the end tag is looked up
under the bare name, and goes through the same switch for undefined names.  What the end tag
flushes can add a name too: `flush_buffer` makes a buffer for a MetaName that has none.

## Main definitions

* `EndQuiet` — an end tag returns and adds no name.
* `NameSettled` — the switch for undefined names has nothing to do.
* `EndSettled`, `endTag_quiet_iff`.
-/

namespace LibSwish3

open Runs Tables

/-! ## What an end tag may change -/

/-- The same MetaNames, Properties and buffers. -/
structure SameNames (pd pd' : ParserData) : Prop where
  metanames : ∀ k, k ∈ pd'.config.metanames ↔ k ∈ pd.config.metanames
  properties : ∀ k, k ∈ pd'.config.properties ↔ k ∈ pd.config.properties
  metanameBuffers : ∀ k, k ∈ pd'.metanames ↔ k ∈ pd.metanames
  propertyBuffers : ∀ k, k ∈ pd'.properties ↔ k ∈ pd.properties

/-- The end of an element returns and adds no name. -/
def EndQuiet (env : SaxEnv) (fuel : Nat) (pd : ParserData) (localname : XmlStr)
    (xmlnsPrefix : Option XmlStr) : Prop :=
  ∃ pd', saxStep env fuel pd (.endElementNs localname xmlnsPrefix) = .ok pd' ∧ SameNames pd pd'

/-- The switch for undefined names neither croaks nor makes up a name. -/
def NameSettled (pd : ParserData) (swishtag : XmlStr) : Prop :=
  Defined pd swishtag ∨ pd.config.flags.undefMetas = .ignore ∨
    pd.config.flags.undefMetas = .index

/-- A text that is not blank finds a buffer under each name. -/
def Takes (nb : NamedBuffer) (text : XmlStr) (names : List XmlStr) : Prop :=
  strAllWs (cstr text) = false → ∀ name ∈ names, name ∈ nb

/-- The tokenizer, if it is called on the meta buffer, returns. -/
def Tokenizes (pd : ParserData) (metaname context : XmlStr) : Prop :=
  pd.analyzer.tokenize = true → pd.metaBuf ≠ [] →
    ∃ result, pd.analyzer.tokenizer pd.tokens (cstr pd.metaBuf)
      (pd.config.metanames.lookup metaname) context = .ok result

/-- The meta buffer can be flushed under a MetaName into buffers that are there. -/
def MetaTakes (pd : ParserData) (metaname context : XmlStr) : Prop :=
  ∃ storedAs, metanameStoredAs pd.config metaname = .ok storedAs ∧
    Takes pd.metanames pd.metaBuf (storedAs :: cascadeNames pd storedAs) ∧
    Tokenizes pd storedAs context

/-- The property buffer can be added to a Property and, as it is by then, to those on the
stack. -/
def PropTakes (pd : ParserData) (baked : XmlStr) : Prop :=
  ∃ storedAs cleanwsp, propertyStoredAs pd.config baked = .ok (storedAs, cleanwsp) ∧
    Takes pd.properties pd.propBuf [storedAs] ∧
    Takes pd.properties (cleanedInPlace cleanwsp pd.propBuf)
      ((pd.propstack.tags.map Tag.baked).filter (· ≠ Swish.domStr))

/-- An end tag finds all it looks for: its name, the stacks, and the buffers of what ends. -/
structure EndSettled (pd : ParserData) (raw swishtag : XmlStr) : Prop where
  name : NameSettled pd swishtag
  property : ∃ st propstack, pd.propstack.popOnMatch raw = .ok (st, propstack) ∧
    ∀ ended ∈ st, PropTakes { pd with propstack } ended.baked
  metaname : ∃ st metastack, pd.metastack.popOnMatch raw = .ok (st, metastack) ∧
    ∀ ended ∈ st, MetaTakes { pd with metastack } ended.baked ended.context
  domstack : pd.domstack.tags ≠ []

/-! ## The names of buffers -/

section Buffers

variable {pd pd' : ParserData} {nb nb' : NamedBuffer} {name str joiner storedAs : XmlStr}
  {cleanwsp autovivify : Bool} {tags : List Tag}

theorem nbAddStr_returns_iff :
    (∃ nb', nbAddStr nb name str joiner cleanwsp false = .ok nb') ↔ Takes nb str [name] := by
  constructor
  · rintro ⟨nb', h⟩ hblank k hk
    rw [List.mem_singleton.mp hk, ← mem_nbAddStr h]
    exact (mem_of_nbAddStr h name).mpr (.inr ⟨hblank, rfl⟩)
  · intro h
    cases hblank : strAllWs (cstr str) with
    | true => exact ⟨nb, by rw [nbAddStr, if_pos hblank]⟩
    | false => exact nbAddStr_ok_of _ _ _ (.inr (h hblank name List.mem_cons_self))

theorem takes_cons_iff {names : List XmlStr} :
    Takes nb str (name :: names) ↔ Takes nb str [name] ∧ Takes nb str names := by
  simp only [Takes, List.mem_cons, List.not_mem_nil, or_false, forall_eq_or_imp, forall_eq]
  tauto

/-- The buffers that the meta buffer is added to beside the flushed one. -/
theorem run_cascadeStep_keys (metaBuf : XmlStr) (nb : NamedBuffer) :
    ∃ nb', run (cascadeStep metaBuf storedAs) nb tags = .ok nb' ∧
      ∀ k, k ∈ nb' ↔ k ∈ nb ∨ strAllWs (cstr metaBuf) = false ∧
        k ∈ (tags.map Tag.baked).filter (· ≠ storedAs) := by
  induction tags generalizing nb with
  | nil => exact ⟨nb, rfl, by simp⟩
  | cons tag tags ih =>
      by_cases heq : tag.baked = storedAs
      · obtain ⟨nb', hrun, hkeys⟩ := ih nb
        have hstep : cascadeStep metaBuf storedAs nb tag = .ok nb := by rw [cascadeStep, if_pos heq]
        refine ⟨nb', by rw [run_cons_of_ok hstep, hrun], ?_⟩
        rw [List.map_cons, List.filter_cons_of_neg (by simpa using heq)]
        exact hkeys
      · have hadded : ∃ nb₁, nbAddStr nb tag.baked metaBuf Swish.tokenposBumper false true =
            .ok nb₁ := nbAddStr_ok_of _ _ _ (.inl rfl)
        obtain ⟨nb₁, hadd⟩ := hadded
        obtain ⟨nb', hrun, hkeys⟩ := ih nb₁
        have hstep : cascadeStep metaBuf storedAs nb tag = .ok nb₁ := by
          rw [cascadeStep, if_neg heq, hadd]
        refine ⟨nb', by rw [run_cons_of_ok hstep, hrun], fun k => ?_⟩
        rw [hkeys, mem_of_nbAddStr hadd, List.map_cons,
          List.filter_cons_of_pos (by simpa using heq), List.mem_cons]
        tauto

theorem cascadeMetas_keys (pd : ParserData) (storedAs : XmlStr) (nb : NamedBuffer) :
    ∃ nb', cascadeMetas pd storedAs nb = .ok nb' ∧
      ∀ k, k ∈ nb' ↔ k ∈ nb ∨ strAllWs (cstr pd.metaBuf) = false ∧
        k ∈ cascadeNames pd storedAs := by
  rw [cascadeMetas, cascadeNames]
  split
  · exact run_cascadeStep_keys pd.metaBuf nb
  · exact ⟨nb, rfl, by simp⟩

theorem tokenizeBuffer_returns_iff {metaname context : XmlStr} :
    (∃ pd', tokenizeBuffer { pd with metanames := nb } metaname context = .ok pd') ↔
      Tokenizes pd metaname context := by
  rw [tokenizeBuffer, Tokenizes]
  cases htok : pd.analyzer.tokenize with
  | false => simp
  | true =>
      cases hbuf : pd.metaBuf with
      | nil => simp
      | cons b text =>
          simp only [Bool.not_true, List.isEmpty_cons, Bool.or_self, Bool.false_eq_true, if_false]
          constructor
          · rintro ⟨pd', h⟩ - -
            obtain ⟨result, hresult, -⟩ := bind_ok_iff.mp h
            exact ⟨result, hresult⟩
          · intro h
            obtain ⟨result, hresult⟩ := h trivial (List.cons_ne_nil _ _)
            exact ⟨_, bind_ok_iff.mpr ⟨result, hresult, rfl⟩⟩

/-- A flush that returns and makes no buffer. -/
theorem flushBuffer_quiet_iff {metaname context : XmlStr} :
    (∃ pd', flushBuffer pd metaname context = .ok pd' ∧
      ∀ k, k ∈ pd'.metanames ↔ k ∈ pd.metanames) ↔ MetaTakes pd metaname context := by
  constructor
  · rintro ⟨pd', h, hkeys⟩
    obtain ⟨storedAs, hstored, h⟩ := bind_ok_iff.mp h
    obtain ⟨nb₁, hadd, h⟩ := bind_ok_iff.mp h
    obtain ⟨nb₂, hcascade, h⟩ := bind_ok_iff.mp h
    obtain ⟨pd₁, htok, h⟩ := bind_ok_iff.mp h
    obtain ⟨nb', hcascade', hnames⟩ := cascadeMetas_keys pd storedAs nb₁
    cases hcascade.symm.trans hcascade'
    refine ⟨storedAs, hstored, fun hblank name hname => ?_, ?_⟩
    · have hadded : name ∈ nb₂ := by
        rw [hnames, mem_of_nbAddStr hadd]
        rcases List.mem_cons.mp hname with rfl | hname
        · exact .inl (.inr ⟨hblank, rfl⟩)
        · exact .inr ⟨hblank, hname⟩
      obtain ⟨tokens, nwords, rfl⟩ := tokenizeBuffer_ok htok
      cases h
      exact (hkeys name).mp hadded
    · exact tokenizeBuffer_returns_iff.mp ⟨pd₁, htok⟩
  · rintro ⟨storedAs, hstored, htakes, htok⟩
    have hadded : ∃ nb₁, nbAddStr pd.metanames storedAs pd.metaBuf Swish.tokenposBumper false
        true = .ok nb₁ := nbAddStr_ok_of _ _ _ (.inl rfl)
    obtain ⟨nb₁, hadd⟩ := hadded
    obtain ⟨nb₂, hcascade, hnames⟩ := cascadeMetas_keys pd storedAs nb₁
    have hreturns : ∃ pd₁, tokenizeBuffer { pd with metanames := nb₂ } storedAs context =
        .ok pd₁ := tokenizeBuffer_returns_iff.mpr htok
    obtain ⟨pd₁, htok⟩ := hreturns
    refine ⟨{ pd₁ with metaBuf := [] }, ?_, fun k => ?_⟩
    · simp only [flushBuffer, hstored, hadd, hcascade, htok, ok_bind]
      rfl
    · obtain ⟨tokens, nwords, rfl⟩ := tokenizeBuffer_ok htok
      show k ∈ nb₂ ↔ k ∈ pd.metanames
      rw [hnames, mem_of_nbAddStr hadd]
      refine ⟨?_, fun hk => .inl (.inl hk)⟩
      rintro ((hk | ⟨hblank, rfl⟩) | ⟨hblank, hk⟩)
      · exact hk
      · exact htakes hblank _ List.mem_cons_self
      · exact htakes hblank _ (List.mem_cons_of_mem _ hk)

/-- A text that was cleaned in place is blank as soon as it is blank after the next cleaning. -/
theorem strAllWs_cleanedInPlace_twice (str : XmlStr) :
    strAllWs (cstr (cleanedInPlace cleanwsp (cleanedInPlace cleanwsp str))) =
      strAllWs (cstr (cleanedInPlace cleanwsp str)) := by
  rw [Bool.eq_iff_iff, strAllWs_cleanedInPlace_iff, cleanedText_cleanedInPlace,
    strAllWs_cleanedInPlace_iff]
  tauto

/-- The stack takes a text that was cleaned in place. -/
theorem run_propStackStep_returns_iff (str : XmlStr) (nb : NamedBuffer) :
    (∃ s', run (propStackStep cleanwsp) (nb, cleanedInPlace cleanwsp str) tags = .ok s') ↔
      Takes nb (cleanedInPlace cleanwsp str) ((tags.map Tag.baked).filter (· ≠ Swish.domStr)) := by
  induction tags generalizing str nb with
  | nil => exact iff_of_true ⟨_, rfl⟩ fun _ => by simp
  | cons tag tags ih =>
      by_cases heq : tag.baked = Swish.domStr
      · have hstep : propStackStep cleanwsp (nb, cleanedInPlace cleanwsp str) tag =
            .ok (nb, cleanedInPlace cleanwsp str) := by rw [propStackStep, if_pos heq]
        rw [run_cons_of_ok hstep, ih, List.map_cons, List.filter_cons_of_neg (by simpa using heq)]
      · have hnext : ∀ {nb₁}, nbAddStr nb tag.baked (cleanedInPlace cleanwsp str)
              Swish.tokenposBumper cleanwsp false = .ok nb₁ →
            (Takes nb₁ (cleanedInPlace cleanwsp (cleanedInPlace cleanwsp str))
                ((tags.map Tag.baked).filter (· ≠ Swish.domStr)) ↔
              Takes nb (cleanedInPlace cleanwsp str)
                ((tags.map Tag.baked).filter (· ≠ Swish.domStr))) := by
          intro nb₁ hadd
          simp only [Takes, strAllWs_cleanedInPlace_twice, mem_nbAddStr hadd]
        rw [List.map_cons, List.filter_cons_of_pos (by simpa using heq), takes_cons_iff]
        constructor
        · rintro ⟨s', h⟩
          obtain ⟨s₁, hstep, hrest⟩ := run_cons_ok_iff.mp h
          rw [propStackStep, if_neg heq] at hstep
          obtain ⟨nb₁, hadd, hstep⟩ := bind_ok_iff.mp hstep
          cases hstep
          exact ⟨nbAddStr_returns_iff.mp ⟨nb₁, hadd⟩,
            (hnext hadd).mp ((ih (cleanedInPlace cleanwsp str) nb₁).mp ⟨s', hrest⟩)⟩
        · rintro ⟨hfirst, hrest⟩
          have hadded : ∃ nb₁, nbAddStr nb tag.baked (cleanedInPlace cleanwsp str)
              Swish.tokenposBumper cleanwsp false = .ok nb₁ := nbAddStr_returns_iff.mpr hfirst
          obtain ⟨nb₁, hadd⟩ := hadded
          obtain ⟨s', hrun⟩ := (ih (cleanedInPlace cleanwsp str) nb₁).mpr ((hnext hadd).mpr hrest)
          have hstep : propStackStep cleanwsp (nb, cleanedInPlace cleanwsp str) tag =
              .ok (nb₁, cleanedInPlace cleanwsp (cleanedInPlace cleanwsp str)) := by
            rw [propStackStep, if_neg heq, hadd]
            rfl
          exact ⟨s', by rw [run_cons_of_ok hstep, hrun]⟩

/-- A property buffer that can be added. -/
theorem addStackToPropBuf_returns_iff {baked : XmlStr} :
    (∃ pd', addStackToPropBuf pd (some baked) = .ok pd') ↔ PropTakes pd baked := by
  constructor
  · rintro ⟨pd', h⟩
    obtain ⟨⟨s, cleanwsp⟩, hadd, h⟩ := bind_ok_iff.mp h
    obtain ⟨s', hrun, -⟩ := bind_ok_iff.mp h
    obtain ⟨⟨storedAs, cleanwsp₁⟩, hstored, hadd⟩ := bind_ok_iff.mp hadd
    obtain ⟨nb, hnb, hadd⟩ := bind_ok_iff.mp hadd
    cases hadd
    have hrest := (run_propStackStep_returns_iff pd.propBuf nb).mp ⟨s', hrun⟩
    simp only [Takes, mem_nbAddStr hnb] at hrest
    exact ⟨storedAs, cleanwsp, hstored, nbAddStr_returns_iff.mp ⟨nb, hnb⟩, hrest⟩
  · rintro ⟨storedAs, cleanwsp, hstored, hfirst, hrest⟩
    have hadded : ∃ nb, nbAddStr pd.properties storedAs pd.propBuf Swish.tokenposBumper cleanwsp
        false = .ok nb := nbAddStr_returns_iff.mpr hfirst
    obtain ⟨nb, hnb⟩ := hadded
    simp only [Takes, ← mem_nbAddStr hnb] at hrest
    obtain ⟨s', hrun⟩ := (run_propStackStep_returns_iff pd.propBuf nb).mpr hrest
    refine ⟨{ pd with properties := s'.1, propBuf := [] }, ?_⟩
    simp only [addStackToPropBuf, addToProperty, hstored, hnb, ok_bind, pure_eq_ok, hrun]

end Buffers

/-! ## The stacks -/

section Stacks

variable {pd pd' : ParserData} {raw : XmlStr}

theorem popProperty_returns_iff :
    (∃ pd', popProperty pd raw = .ok pd') ↔
      ∃ st propstack, pd.propstack.popOnMatch raw = .ok (st, propstack) ∧
        ∀ ended ∈ st, PropTakes { pd with propstack } ended.baked := by
  constructor
  · rintro ⟨pd', h⟩
    obtain ⟨⟨st, propstack⟩, hpop, h⟩ := bind_ok_iff.mp h
    refine ⟨st, propstack, hpop, ?_⟩
    rintro ended ⟨⟩
    exact addStackToPropBuf_returns_iff.mp ⟨pd', h⟩
  · rintro ⟨st, propstack, hpop, htakes⟩
    rw [popProperty, hpop]
    cases st with
    | none => exact ⟨_, rfl⟩
    | some ended => exact addStackToPropBuf_returns_iff.mpr (htakes ended rfl)

theorem popMetaname_quiet_iff :
    (∃ pd', popMetaname pd raw = .ok pd' ∧ ∀ k, k ∈ pd'.metanames ↔ k ∈ pd.metanames) ↔
      ∃ st metastack, pd.metastack.popOnMatch raw = .ok (st, metastack) ∧
        ∀ ended ∈ st, MetaTakes { pd with metastack } ended.baked ended.context := by
  constructor
  · rintro ⟨pd', h, hkeys⟩
    obtain ⟨⟨st, metastack⟩, hpop, h⟩ := bind_ok_iff.mp h
    refine ⟨st, metastack, hpop, ?_⟩
    rintro ended ⟨⟩
    exact flushBuffer_quiet_iff.mp ⟨pd', h, hkeys⟩
  · rintro ⟨st, metastack, hpop, htakes⟩
    rw [popMetaname, hpop]
    cases st with
    | none => exact ⟨_, rfl, fun _ => .rfl⟩
    | some ended => exact flushBuffer_quiet_iff.mpr (htakes ended rfl)

theorem popProperty_fields (h : popProperty pd raw = .ok pd') :
    ∃ propstack properties propBuf, pd' = { pd with propstack, properties, propBuf } ∧
      ∀ k, k ∈ properties ↔ k ∈ pd.properties := by
  obtain ⟨⟨st, propstack⟩, -, h⟩ := bind_ok_iff.mp h
  cases st with
  | none =>
      cases h
      exact ⟨propstack, pd.properties, pd.propBuf, rfl, fun _ => .rfl⟩
  | some ended =>
      have hkeys := addStackToPropBuf_keys h
      obtain ⟨properties, rfl⟩ := addStackToPropBuf_ok h
      exact ⟨propstack, properties, [], rfl, hkeys⟩

theorem pop_tags_iff {stack : TagStack} :
    (∃ ended, stack.pop.1 = some ended) ↔ stack.tags ≠ [] := by
  cases htags : stack.tags with
  | nil => simp [TagStack.pop, htags]
  | cons top rest =>
      refine iff_of_true ⟨top, ?_⟩ (List.cons_ne_nil _ _)
      simp only [TagStack.pop, htags]
      split <;> rfl

/-- What ends with a tag can be flushed, and makes no buffer. -/
theorem popTags_quiet_iff :
    (∃ pd', popTags pd raw = .ok pd' ∧ SameNames pd pd') ↔
      (∃ st propstack, pd.propstack.popOnMatch raw = .ok (st, propstack) ∧
        ∀ ended ∈ st, PropTakes { pd with propstack } ended.baked) ∧
      (∃ st metastack, pd.metastack.popOnMatch raw = .ok (st, metastack) ∧
        ∀ ended ∈ st, MetaTakes { pd with metastack } ended.baked ended.context) ∧
      pd.domstack.tags ≠ [] := by
  rw [← popProperty_returns_iff, ← pop_tags_iff]
  constructor
  · rintro ⟨pd', h, hsame⟩
    obtain ⟨pd₁, hprop, hrest⟩ := bind_ok_iff.mp h
    obtain ⟨pd₂, hmeta, hdom⟩ := bind_ok_iff.mp hrest
    have hpopped : pd'.metanames = pd₂.metanames ∧ ∃ ended, pd₂.domstack.pop.1 = some ended := by
      split at hdom
      · cases hdom
      · rename_i ended domstack hpop
        cases hdom
        exact ⟨rfl, ended, congrArg Prod.fst hpop⟩
    refine ⟨⟨pd₁, hprop⟩, ?_⟩
    obtain ⟨propstack, properties, propBuf, rfl, -⟩ := popProperty_fields hprop
    have hends := popMetaname_quiet_iff.mp ⟨pd₂, hmeta, fun k => by
      rw [← hpopped.1]
      exact hsame.metanameBuffers k⟩
    obtain ⟨metanames, tokens, nwords, metaBuf, metastack, rfl⟩ := popMetaname_fields hmeta
    exact ⟨hends, hpopped.2⟩
  · rintro ⟨⟨pd₁, hprop⟩, hends, ended, hended⟩
    obtain ⟨propstack, properties, propBuf, rfl, hkeys⟩ := popProperty_fields hprop
    obtain ⟨pd₂, hmeta, hquiet⟩ :=
      (@popMetaname_quiet_iff { pd with propstack, properties, propBuf } raw).mpr hends
    have hfields : pd₂.domstack = pd.domstack ∧ pd₂.properties = properties ∧
        pd₂.config = pd.config := by
      obtain ⟨metanames, tokens, nwords, metaBuf, metastack, rfl⟩ := popMetaname_fields hmeta
      exact ⟨rfl, rfl, rfl⟩
    obtain ⟨hdom, hproperties, hconfig⟩ := hfields
    have hpop : pd₂.domstack.pop = (some ended, pd.domstack.pop.2) := by
      rw [hdom]
      exact Prod.ext hended rfl
    refine ⟨{ pd₂ with domstack := pd.domstack.pop.2 }, ?_, ?_⟩
    · simp only [popTags, hprop, ok_bind, hmeta, hpop]
      rfl
    · exact ⟨fun k => by rw [hconfig], fun k => by rw [hconfig], hquiet,
        fun k => by rw [hproperties, hkeys]⟩

end Stacks

/-! ## The name of the element -/

section Name

variable {env : TagEnv} {pd pd' : ParserData} {swishtag : XmlStr}

/-- A settled name leaves all but the counter of hidden text alone. -/
theorem undefXmlTag_settled (h : NameSettled pd swishtag) :
    ∃ n, undefXmlTag pd swishtag = .ok { pd with ignoreContent := n } := by
  by_cases hdefined : swishtag ∈ pd.config.metanames ∨ swishtag ∈ pd.config.tagAliases
  · exact ⟨pd.ignoreContent, by rw [undefXmlTag, if_pos hdefined]⟩
  · rw [undefXmlTag, if_neg hdefined]
    rcases h.resolve_left hdefined with hmode | hmode
    · exact ⟨pd.ignoreContent + 1, by rw [hmode]⟩
    · exact ⟨0, by rw [hmode]⟩

/-- Behind the switch the name is settled. -/
theorem undefXmlTag_settles (h : undefXmlTag pd swishtag = .ok pd') : NameSettled pd' swishtag := by
  cases undefXmlTag_switch h with
  | defined hdefined => exact .inl hdefined
  | ignore _ hmode => exact .inr (.inl hmode)
  | auto _ _ hmeta => exact .inl (.inl (autoMetaname_mem hmeta))
  | autoall _ _ hmeta hprop =>
      have hgrows := (autoProperty_calm hprop).config
      exact .inl (.inl (hgrows.metanames _ (autoMetaname_mem hmeta)))
  | index _ hmode => exact .inr (.inr hmode)

theorem NameSettled.grows (h : NameSettled pd swishtag) (hgrows : Grows pd.config pd'.config) :
    NameSettled pd' swishtag := by
  rw [NameSettled, hgrows.undefMetas]
  exact h.imp_left fun hdefined => hdefined.grows hgrows

/-- The switch makes up no name exactly if the name was settled. -/
theorem nameSettled_of_keys (h : undefXmlTag pd swishtag = .ok pd')
    (hkeys : ∀ k, k ∈ pd'.config.metanames ↔ k ∈ pd.config.metanames) :
    NameSettled pd swishtag := by
  obtain ⟨n, hcalm⟩ := undefXmlTag_calm h
  have hsettled := undefXmlTag_settles h
  rw [NameSettled, hcalm.config.undefMetas] at hsettled
  refine hsettled.imp_left ?_
  rw [Defined, Defined, hkeys, hcalm.config.tagAliases]
  exact id

theorem bakeAttribute_settings {c : Config} {s s' : ParserData × XmlStr}
    {att : XmlStr × Option XmlStr} {xmlnsPrefix : Option XmlStr} (h : SameAttributes c s.1.config)
    (hok : bakeAttribute env xmlnsPrefix s att = .ok s') : SameAttributes c s'.1.config :=
  ((sameAttributes_textSteps c).tagSteps.bakeSteps.bakeAttribute h
    (fun _ _ _ _ _ _ _ => plainMeets_free) hok).1

/-- Without class attributes the start tag of an element is looked up under the name that its end
tag is looked up under. -/
theorem openTag_settles {raw : XmlStr} {atts : Option Atts} {xmlnsPrefix : Option XmlStr}
    (hxml : pd.isHtml = false) (hnorm : normalizeTag env pd raw xmlnsPrefix = .ok swishtag)
    (hnot : NoClassAttribute env.loc (classWords pd.config) (atts.getD []))
    (hok : openTag env pd raw atts xmlnsPrefix = .ok pd') : NameSettled pd' swishtag := by
  obtain ⟨baked, pd₁, hbake, hpush⟩ := openTag_ok hok
  obtain ⟨swishtag', hnorm', hbake⟩ := bind_ok_iff.mp hbake
  cases hnorm.symm.trans hnorm'
  rw [if_neg (by simp [hxml])] at hbake
  obtain ⟨s, hrun, hbake⟩ := bind_ok_iff.mp hbake
  obtain ⟨pd₂, hundef, hbake⟩ := bind_ok_iff.mp hbake
  cases hbake
  have hname : s.2 = swishtag ∧ SameAttributes pd.config s.1.config := by
    refine invariant_of_steps
      (I := fun s => s.2 = swishtag ∧ SameAttributes pd.config s.1.config) ?_
      ⟨rfl, rfl, rfl⟩ (steps_of_forall hnot) hrun
    rintro t att t' ⟨rfl, hsettings⟩ hlisted hstep
    refine ⟨?_, bakeAttribute_settings hsettings hstep⟩
    obtain ⟨names, hnames, hstep⟩ := bind_ok_iff.mp hstep
    obtain ⟨pd₃, -, hstep⟩ := bind_ok_iff.mp hstep
    obtain ⟨pd₄, -, hstep⟩ := bind_ok_iff.mp hstep
    cases hstep
    rw [(attributeNames_ok_iff.mp hnames).2.1]
    refine classAttribute_of_not_mem ?_
    rwa [classWords, hsettings.stringlists]
  rw [hname.1] at hundef
  exact (undefXmlTag_settles hundef).grows (pushTags_ok hpush).2.2.2.config

/-- An end tag of an XML document is quiet exactly if it finds all it looks for. -/
theorem closeTag_quiet_iff {raw : XmlStr} {xmlnsPrefix : Option XmlStr} (hxml : pd.isHtml = false)
    (hheld : TagHeld pd) (hnorm : normalizeTag env pd raw xmlnsPrefix = .ok swishtag) :
    (∃ pd', closeTag env pd raw xmlnsPrefix = .ok pd' ∧ SameNames pd pd') ↔
      EndSettled pd raw swishtag := by
  constructor
  · rintro ⟨pd', h, hsame⟩
    obtain ⟨pd₁, baked, ⟨swishtag', pd₂, hnorm', hplain, -, rfl⟩, hpop⟩ := closeTag_ok h
    cases hnorm.symm.trans hnorm'
    rw [plainTag, if_neg (by simp [hxml])] at hplain
    obtain ⟨_, _, _, -, -, -, hconfig, -⟩ := popTags_ok hpop
    have hsettled : NameSettled pd swishtag := by
      refine @nameSettled_of_keys { pd with tag := .null, bumpWord := true } _ swishtag hplain ?_
      intro k
      rw [← hsame.metanames, hconfig]
    obtain ⟨n, hplain'⟩ :=
      @undefXmlTag_settled { pd with tag := .null, bumpWord := true } swishtag hsettled
    cases hplain.symm.trans hplain'
    obtain ⟨hprops, hmetas, hdom⟩ := popTags_quiet_iff.mp
      ⟨pd', hpop, ⟨hsame.metanames, hsame.properties, hsame.metanameBuffers, hsame.propertyBuffers⟩⟩
    exact ⟨hsettled, hprops, hmetas, hdom⟩
  · rintro ⟨hsettled, hprops, hmetas, hdom⟩
    obtain ⟨n, hplain⟩ :=
      @undefXmlTag_settled { pd with tag := .null, bumpWord := true } swishtag hsettled
    let pd₁ : ParserData := { pd with tag := .null, bumpWord := true, ignoreContent := n }
    obtain ⟨pd', hpop, hsame⟩ :=
      (@popTags_quiet_iff { pd₁ with tag := .live (aliasTag pd₁ swishtag) } raw).mpr
        ⟨hprops, hmetas, hdom⟩
    refine ⟨pd', ?_, ⟨hsame.metanames, hsame.properties, hsame.metanameBuffers,
      hsame.propertyBuffers⟩⟩
    have hbake : bakeTagPlain env { pd with tag := .null } raw xmlnsPrefix =
        .ok (aliasTag pd₁ swishtag, pd₁) := by
      refine bind_ok_iff.mpr ⟨swishtag, hnorm, bind_ok_iff.mpr ⟨pd₁, ?_, rfl⟩⟩
      rw [plainTag, if_neg (by simp [hxml])]
      exact hplain
    simp only [closeTag, freeTag_plain hheld, ok_bind, hbake, hpop]

end Name

/-! ## Elements -/

section Elements

variable {env : SaxEnv} {fuel : Nat} {pd₀ pd₁ pd : ParserData} {localname swishtag : XmlStr}
  {xmlnsPrefix uri : Option XmlStr} {attributes : List (XmlStr × XmlStr)}
  {content : List SaxEvent}

theorem saxStep_grows {e : SaxEvent} (h : saxStep env fuel pd₁ e = .ok pd) :
    Grows pd₁.config pd.config :=
  saxEvent_grows (fun _ _ _ _ hinclude => (xincludeDeep_calm hinclude).config) h

theorem run_grows (h : run (saxStep env fuel) pd₁ content = .ok pd) :
    Grows pd₁.config pd.config :=
  invariant (I := fun pd => Grows pd₁.config pd.config)
    (fun _ _ _ hgrows hstep => hgrows.trans (saxStep_grows hstep)) (.refl _) h

/-- In the content of an element without class attributes its name is settled. -/
theorem nameSettled_of_noClass {atts : Option Atts} (hxml : pd₀.isHtml = false)
    (hnorm : normalizeTag env.toTagEnv pd₀ localname xmlnsPrefix = .ok swishtag)
    (hnot : NoClassAttribute env.loc (classWords pd₀.config) (atts.getD []))
    (hopen : openTag env.toTagEnv pd₀ localname atts xmlnsPrefix = .ok pd₁)
    (hcontent : run (saxStep env fuel) pd₁ content = .ok pd) : NameSettled pd swishtag :=
  (openTag_settles hxml hnorm hnot hopen).grows (run_grows hcontent)

/-- Once the start tag of an XML element has been processed, its end tag returns and adds no name
exactly if it finds all it looks for. -/
theorem endQuiet_iff (hxml : pd₀.isHtml = false)
    (hnorm : normalizeTag env.toTagEnv pd₀ localname xmlnsPrefix = .ok swishtag)
    (hstart : saxStep env fuel pd₀ (.startElementNs localname xmlnsPrefix uri attributes) = .ok pd₁)
    (hcontent : run (saxStep env fuel) pd₁ content = .ok pd) :
    EndQuiet env fuel pd localname xmlnsPrefix ↔ EndSettled pd localname swishtag := by
  have hheld₁ : TagHeld pd₁ := by
    obtain ⟨pd₂, -, hopen⟩ := bind_ok_iff.mp hstart
    obtain ⟨baked, htag⟩ := openTag_tag hopen
    rw [TagHeld, htag]
    exact tagHeld_tagPtr baked
  have hgrows := (saxStep_grows hstart).trans (run_grows hcontent)
  obtain ⟨hxml', hheld⟩ : pd.isHtml = false ∧ TagHeld pd := by
    refine invariant (I := fun pd => pd.isHtml = false ∧ TagHeld pd) ?_
      ⟨(saxStep_isHtml hstart).trans hxml, hheld₁⟩ hcontent
    rintro pd₂ e pd₃ ⟨hxml₂, hheld₂⟩ hstep
    exact ⟨(saxStep_isHtml hstep).trans hxml₂, saxEvent_tagHeld hheld₂ hstep⟩
  refine closeTag_quiet_iff hxml' hheld ?_
  rw [normalizeTag] at hnorm ⊢
  rwa [hgrows.ignoreXmlns]

end Elements

/-- The default config with a MetaName `a.x` and `class` in `XMLClassAttributes`, where undefined
names are an error. -/
def strictClassConfig : Config :=
  let c := configSetDefault (lit "C")
  { c with
    metanames := c.metanames.insert (lit "a.x") (metanameInit (lit "a.x"))
    stringlists := c.stringlists.insert Swish.classAttributes [lit "class"]
    flags := { c.flags with undefMetas := .error } }

/-- A document at its start, with this config. -/
def strictClassDocument : ParserData := initParserData strictClassConfig .idle docinfoInit

/-- The document behind some events. -/
def strictBehind (events : List SaxEvent) : ParserData :=
  (run (saxStep .alone 0) strictClassDocument events).toOption.getD strictClassDocument

/-- `<swishdefault>one` -/
def beforeTitle : List SaxEvent :=
  [.startElementNs Swish.defaultMetaname none none [], .characters (lit "one")]

/-- `two<swishdefault>three</swishdefault>four` -/
def insideTitle : List SaxEvent :=
  [.characters (lit "two"), .startElementNs Swish.defaultMetaname none none [],
    .characters (lit "three"), .endElementNs Swish.defaultMetaname none, .characters (lit "four")]

/-- The end of an element with a defined name, whose text is still to be flushed. -/
theorem endQuiet_swishtitle : ∃ pd₀ pd₁ pd,
    run (saxStep .alone 0) strictClassDocument beforeTitle = .ok pd₀ ∧
      saxStep .alone 0 pd₀ (.startElementNs Swish.titleMetaname none none []) = .ok pd₁ ∧
      run (saxStep .alone 0) pd₁ insideTitle = .ok pd ∧ pd.metaBuf = lit "four" ∧
      EndQuiet .alone 0 pd Swish.titleMetaname none := by
  let start : SaxEvent := .startElementNs Swish.titleMetaname none none []
  let pd := strictBehind (beforeTitle ++ start :: insideTitle)
  have hstart : saxStep .alone 0 (strictBehind beforeTitle) start =
      .ok (strictBehind (beforeTitle ++ [start])) := rfl
  have hcontent : run (saxStep .alone 0) (strictBehind (beforeTitle ++ [start])) insideTitle =
      .ok pd := rfl
  have hnorm : normalizeTag SaxEnv.alone.toTagEnv (strictBehind beforeTitle) Swish.titleMetaname
      none = .ok Swish.titleMetaname := rfl
  refine ⟨_, _, pd, rfl, hstart, hcontent, by decide +kernel,
    (endQuiet_iff rfl hnorm hstart hcontent).mpr ?_⟩
  refine ⟨.inl (.inl (by decide +kernel)), ⟨_, _, rfl, ?_⟩, ⟨_, _, rfl, ?_⟩, by decide +kernel⟩
  · rintro ended ⟨⟩
    exact ⟨_, _, rfl, fun _ => by decide +kernel, fun _ => by decide +kernel⟩
  · rintro ended ⟨⟩
    exact ⟨_, rfl, fun _ => by decide +kernel, fun htok => absurd htok (by decide +kernel)⟩

/-- The start of `<a class="x">` is looked up as `a.x`, and its end croaks. -/
theorem not_endQuiet_class :
    ∃ pd msg, saxStep .alone 0 strictClassDocument
        (.startElementNs (lit "a") none none [(lit "class", lit "x")]) = .ok pd ∧
      saxStep .alone 0 pd (.endElementNs (lit "a") none) = .error (.croak msg) := by
  let pd := (saxStep .alone 0 strictClassDocument
    (.startElementNs (lit "a") none none [(lit "class", lit "x")])).toOption.getD
      strictClassDocument
  exact ⟨pd, _, rfl, rfl⟩

end LibSwish3
