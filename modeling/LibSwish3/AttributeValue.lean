import LibSwish3.EndTags
import LibSwish3.OwnTags
import LibSwish3.StackNames

/-!
# The value of an attribute

An attribute that is a MetaName is opened and closed as a tag of its own, under the dotted name
that the loop of `bake_tag` has formed and with the prefix of its element.  So that name is
lowercased and prefixed a second time, and goes through the aliases and the stacks like any other
name.  Where it comes out as another name the value is indexed elsewhere, or stays in the meta
buffer.

## Main definitions

* `addedText` — the contents of all buffers after a text was added.
* `AttributeIndexed`, `ReceivesValue` — the value is in the buffer of the MetaName and nowhere else.
* `AttributeResolves`, `receivesValue_iff`.
-/

namespace LibSwish3

open Runs Tables

/-! ## Contents -/

/-- The contents after a text was added to some names; a blank one is not added. -/
def addedText (text : XmlStr) (names : List XmlStr) (content : XmlStr → XmlStr) (name : XmlStr) :
    XmlStr :=
  if strAllWs (cstr text) then content name
  else joinTimes Swish.tokenposBumper text (names.count name) (content name)

section Contents

variable {pd pd' : ParserData} {text joiner buf metaname context m : XmlStr}
  {names : List XmlStr} {content : XmlStr → XmlStr}

/-- What a flush does to the contents of the buffers. -/
theorem flushBuffer_content (hok : flushBuffer pd metaname context = .ok pd') :
    ∃ storedAs, metanameStoredAs pd.config metaname = .ok storedAs ∧
      pd'.metanames.content =
        addedText pd.metaBuf (storedAs :: cascadeNames pd storedAs) pd.metanames.content := by
  obtain ⟨storedAs, hstored, -⟩ := bind_ok_iff.mp hok
  refine ⟨storedAs, hstored, funext fun name => ?_⟩
  have hadded := flushBuffer_addedTo hstored hok
  rw [addedText]
  split at hadded
  · rename_i hblank
    rw [if_pos hblank, hadded]
  · rename_i hblank
    rw [if_neg hblank]
    exact hadded name

theorem addedText_nil : addedText [] names content = content := rfl

/-- Adding a text makes no buffer shorter. -/
theorem length_le_addedText (text : XmlStr) (names : List XmlStr) (content : XmlStr → XmlStr)
    (name : XmlStr) : (content name).length ≤ (addedText text names content name).length := by
  rw [addedText]
  split
  · exact Nat.le_refl _
  · rename_i hblank
    have htext : text ≠ [] := fun hnil => hblank (by rw [hnil]; rfl)
    exact Nat.le_trans (Nat.le_add_right _ _) (length_joinTimes_ge _ _ htext)

/-- How often a text was added shows. -/
theorem joinTimes_inj (htext : text ≠ []) {n k : Nat}
    (h : joinTimes joiner text n buf = joinTimes joiner text k buf) : n = k := by
  have hlonger : ∀ {n k : Nat}, n < k →
      joinTimes joiner text n buf ≠ joinTimes joiner text k buf := by
    intro n k hlt heq
    obtain ⟨d, rfl⟩ := Nat.exists_eq_add_of_lt hlt
    have hsplit : joinTimes joiner text (n + d + 1) buf =
        joinTimes joiner text (d + 1) (joinTimes joiner text n buf) := by
      simp only [joinTimes]
      rw [show n + d + 1 = (d + 1) + n by omega, Function.iterate_add_apply]
    have hge := length_joinTimes_ge (n := d + 1) (joinTimes joiner text n buf) joiner htext
    rw [← hsplit, ← heq] at hge
    omega
  rcases Nat.lt_trichotomy n k with hlt | heq | hgt
  · exact absurd h (hlonger hlt)
  · exact heq
  · exact absurd h.symm (hlonger hgt)

/-- A text is added to one name only exactly if no other name gets it. -/
theorem addedText_singleton_iff (hblank : strAllWs (cstr text) = false) :
    addedText text names content = addedText text [m] content ↔ names = [m] := by
  refine ⟨fun h => ?_, fun h => by rw [h]⟩
  have htext : text ≠ [] := fun hnil => by simp [hnil, strAllWs, cstr] at hblank
  refine List.perm_singleton.mp (List.perm_iff_count.mpr fun name => ?_)
  have hname := congrFun h name
  simp only [addedText, hblank, Bool.false_eq_true, if_false] at hname
  exact joinTimes_inj htext hname

/-- A text that is not blank makes the buffer it is added to longer. -/
theorem length_lt_addedText (hblank : strAllWs (cstr text) = false) (content : XmlStr → XmlStr)
    (name : XmlStr) :
    (content name).length < (addedText text [name] content name).length := by
  have htext : text ≠ [] := fun hnil => by simp [hnil, strAllWs, cstr] at hblank
  have hge := length_joinTimes_ge (n := 1) (content name) Swish.tokenposBumper htext
  simp only [addedText, hblank, Bool.false_eq_true, if_false, List.count_singleton_self]
  omega

theorem addedText_singleton_ne (hblank : strAllWs (cstr text) = false)
    (content : XmlStr → XmlStr) (name : XmlStr) : addedText text [name] content ≠ content := by
  intro heq
  have hlt := length_lt_addedText hblank content name
  rw [heq] at hlt
  exact Nat.lt_irrefl _ hlt

end Contents

/-! ## What adding text depends on -/

/-- The meta buffer, the contents of the buffers and the stack are the same. -/
structure SameMetas (pd pd' : ParserData) : Prop where
  metaBuf : pd'.metaBuf = pd.metaBuf
  metastack : pd'.metastack = pd.metastack
  cascade : pd'.config.flags.cascadeMetaContext = pd.config.flags.cascadeMetaContext
  content : pd'.metanames.content = pd.metanames.content

section SameMetas

variable {pd pd' pd₁ pd₂ : ParserData} {name raw context storedAs : XmlStr} {tag : Option XmlStr}

theorem SameMetas.refl (pd : ParserData) : SameMetas pd pd := ⟨rfl, rfl, rfl, rfl⟩

theorem SameMetas.trans (h : SameMetas pd pd₁) (h' : SameMetas pd₁ pd₂) : SameMetas pd pd₂ where
  metaBuf := h'.metaBuf.trans h.metaBuf
  metastack := h'.metastack.trans h.metastack
  cascade := h'.cascade.trans h.cascade
  content := h'.content.trans h.content

theorem SameMetas.cascadeNames (h : SameMetas pd pd') :
    cascadeNames pd' storedAs = cascadeNames pd storedAs := by
  rw [LibSwish3.cascadeNames, LibSwish3.cascadeNames, h.cascade, h.metastack]

theorem autoMetaname_sameMetas (h : autoMetaname pd name = .ok pd') : SameMetas pd pd' := by
  obtain ⟨config, hextends, -, rfl⟩ := autoMetaname_ok h
  exact ⟨rfl, rfl, hextends.cascade, content_nbNew _ _⟩

theorem autoProperty_sameMetas (h : autoProperty pd name = .ok pd') : SameMetas pd pd' := by
  rcases autoProperty_ok h with rfl | ⟨config, hextends, -, -, rfl⟩
  · exact .refl _
  · exact ⟨rfl, rfl, hextends.cascade, rfl⟩

/-- The switch for undefined names adds no text. -/
theorem undefXmlTag_sameMetas (h : undefXmlTag pd name = .ok pd') : SameMetas pd pd' := by
  cases undefXmlTag_switch h with
  | defined => exact .refl _
  | ignore | index => exact ⟨rfl, rfl, rfl, rfl⟩
  | auto _ _ hmeta => exact autoMetaname_sameMetas hmeta
  | autoall _ _ hmeta hprop =>
      exact (autoMetaname_sameMetas hmeta).trans (autoProperty_sameMetas hprop)

theorem pushProperty_fields (h : pushProperty pd raw tag context = .ok pd') :
    ∃ properties propBuf propstack, pd' = { pd with properties, propBuf, propstack } := by
  unfold pushProperty at h
  split at h
  · obtain ⟨pd₁, hadd, h⟩ := bind_ok_iff.mp h
    obtain ⟨baked, -, h⟩ := bind_ok_iff.mp h
    obtain ⟨properties, rfl⟩ := addStackToPropBuf_ok hadd
    exact ⟨properties, [], _, (Except.ok.inj h).symm⟩
  · exact ⟨_, _, _, (Except.ok.inj h).symm⟩

theorem undefXmlTag_extends (h : undefXmlTag pd name = .ok pd') : Extends pd.config pd'.config :=
  (extends_textSteps pd.config).undefXmlTag (.refl _) h

/-- Text stays shown unless the name is ignored. -/
theorem undefXmlTag_shown_iff (h : undefXmlTag pd name = .ok pd') (hshown : pd.ignoreContent = 0) :
    pd'.ignoreContent = 0 ↔ Defined pd name ∨ pd.config.flags.undefMetas ≠ .ignore := by
  cases undefXmlTag_switch h with
  | defined hdefined => exact iff_of_true hshown (.inl hdefined)
  | ignore hnot hmode => simp [Defined, hnot, hmode]
  | auto _ hmode hmeta => simp [(autoMetaname_calm hmeta).ignoreContent, hshown, hmode]
  | autoall _ hmode hmeta hprop =>
      simp [(autoProperty_calm hprop).ignoreContent, (autoMetaname_calm hmeta).ignoreContent,
        hshown, hmode]
  | index _ hmode => simp [hmode]

theorem autoProperty_mem_iff (h : autoProperty pd name = .ok pd') (k : XmlStr) :
    k ∈ pd'.config.properties ↔ k ∈ pd.config.properties ∨ k = name := by
  unfold autoProperty at h
  split at h
  · rename_i hmem
    cases h
    exact ⟨.inl, fun hk => hk.elim id fun heq => heq ▸ hmem⟩
  · obtain ⟨config, hnew, h⟩ := bind_ok_iff.mp h
    obtain ⟨propIds, -, hnew⟩ := bind_ok_iff.mp hnew
    obtain ⟨properties, hadd, hnew⟩ := bind_ok_iff.mp hnew
    obtain ⟨-, rfl⟩ := hashAdd_ok_iff.mp hadd
    cases hnew
    cases h
    exact (AList.mem_insert _).trans or_comm

/-- Only `autoall` makes up a Property. -/
theorem undefXmlTag_properties (h : undefXmlTag pd name = .ok pd') (k : XmlStr) :
    k ∈ pd'.config.properties ↔ k ∈ pd.config.properties ∨
      k = name ∧ ¬ Defined pd name ∧ pd.config.flags.undefMetas = .autoall := by
  cases undefXmlTag_switch h with
  | defined hdefined => simp [Defined, hdefined]
  | ignore _ hmode | index _ hmode => simp [hmode]
  | auto _ hmode hmeta =>
      obtain ⟨config, -, hproperties, rfl⟩ := autoMetaname_ok hmeta
      simp [hproperties, hmode]
  | autoall hnot hmode hmeta hprop =>
      obtain ⟨config, -, hproperties, rfl⟩ := autoMetaname_ok hmeta
      rw [autoProperty_mem_iff hprop, hproperties]
      simp [Defined, hnot, hmode]

end SameMetas

/-! ## MetaNames that a document brings up -/

section Stored

variable {c c' : Config} {m n : XmlStr}

theorem metanameStoredAs_extends (h : Extends c c') (hstored : metanameStoredAs c n = .ok m) :
    metanameStoredAs c' n = .ok m := by
  unfold metanameStoredAs at hstored ⊢
  cases hlook : c.metanames.lookup n with
  | none => simp [hlook] at hstored
  | some found =>
      rw [hlook] at hstored
      rw [h.metanames.retained n found hlook]
      exact hstored

/-- A new name stands for itself, so it is not stored under one that was there. -/
theorem metanameStoredAs_extends_iff (h : Extends c c') (hm : m ∈ c.metanames) :
    metanameStoredAs c' n = .ok m ↔ metanameStoredAs c n = .ok m := by
  refine ⟨fun hstored => ?_, metanameStoredAs_extends h⟩
  cases hlook : c.metanames.lookup n with
  | none =>
      exfalso
      rw [metanameStoredAs] at hstored
      cases hlook' : c'.metanames.lookup n with
      | none => simp [hlook'] at hstored
      | some found =>
          have hnull := h.metanames.introduced n found hlook' hlook
          rw [hlook'] at hstored
          simp only [hnull, CPtr.read_null, ok_bind, Option.getD_none, pure_eq_ok,
            Except.ok.injEq] at hstored
          rw [← hstored] at hm
          exact AList.lookup_eq_none.mp hlook hm
  | some found =>
      rw [metanameStoredAs, h.metanames.retained n found hlook] at hstored
      rw [metanameStoredAs, hlook]
      exact hstored

end Stored

/-! ## The stacks -/

/-- The meta buffer was added to the innermost MetaName. -/
structure FlushesHead (pd pd' : ParserData) : Prop where
  content : ∃ top storedAs, pd.metastack.head = .ok top ∧
    metanameStoredAs pd.config top.baked = .ok storedAs ∧
    pd'.metanames.content =
      addedText pd.metaBuf (storedAs :: cascadeNames pd storedAs) pd.metanames.content
  metaBuf : pd'.metaBuf = []

section Stacks

variable {pd pd' : ParserData} {raw context : XmlStr} {tag : Option XmlStr}

theorem flushHead_content (h : flushHead pd = .ok pd') : FlushesHead pd pd' := by
  obtain ⟨top, htop, h⟩ := bind_ok_iff.mp h
  obtain ⟨storedAs, hstored, hcontent⟩ := flushBuffer_content h
  obtain ⟨metanames, tokens, nwords, rfl⟩ := flushBuffer_ok h
  exact ⟨⟨top, storedAs, htop, hstored, hcontent⟩, rfl⟩

/-- A tag that is a MetaName is pushed behind a flush. -/
theorem pushTags_key (hcontext : domContext pd raw tag = context)
    (hkey : isKey pd.config.metanames tag context = true) (h : pushTags pd raw tag = .ok pd') :
    FlushesHead pd pd' ∧ ∃ baked, pushedName pd.config tag context = .ok baked ∧
      pd'.metastack = pd.metastack.push raw baked Swish.domChar := by
  subst hcontext
  obtain ⟨top, htop, h⟩ := bind_ok_iff.mp h
  obtain ⟨pd₁, hprop, h⟩ := bind_ok_iff.mp h
  cases htop
  obtain ⟨properties, propBuf, propstack, rfl⟩ := pushProperty_fields hprop
  rw [pushMetaname] at h
  obtain ⟨pd₂, hflush, h⟩ := bind_ok_iff.mp ((if_pos hkey).symm.trans h)
  obtain ⟨baked, hbaked, h⟩ := bind_ok_iff.mp h
  cases h
  obtain ⟨hcontent, hempty⟩ := flushHead_content hflush
  obtain ⟨top, -, hflush⟩ := bind_ok_iff.mp hflush
  obtain ⟨metanames, tokens, nwords, rfl⟩ := flushBuffer_ok hflush
  exact ⟨⟨hcontent, hempty⟩, baked, hbaked, rfl⟩

theorem pushTags_notKey (hcontext : domContext pd raw tag = context)
    (hkey : isKey pd.config.metanames tag context = false) (h : pushTags pd raw tag = .ok pd') :
    SameMetas pd pd' := by
  subst hcontext
  obtain ⟨top, htop, h⟩ := bind_ok_iff.mp h
  obtain ⟨pd₁, hprop, h⟩ := bind_ok_iff.mp h
  cases htop
  obtain ⟨properties, propBuf, propstack, rfl⟩ := pushProperty_fields hprop
  rw [pushMetaname] at h
  cases (if_neg (by rw [Bool.not_eq_true]; exact hkey)).symm.trans h
  exact ⟨rfl, rfl, rfl, rfl⟩

/-- A tag that pops nothing leaves the text where it is. -/
theorem popTags_none {metastack : TagStack} (h : popTags pd raw = .ok pd')
    (hpop : pd.metastack.popOnMatch raw = .ok (none, metastack)) :
    pd'.metanames.content = pd.metanames.content := by
  obtain ⟨pd₁, hprop, h⟩ := bind_ok_iff.mp h
  obtain ⟨pd₂, hmeta, h⟩ := bind_ok_iff.mp h
  obtain ⟨propstack, properties, propBuf, rfl, -⟩ := popProperty_fields hprop
  rw [popMetaname, hpop] at hmeta
  cases hmeta
  split at h
  · cases h
  · cases h
    rfl

/-- A tag that pops a MetaName adds the meta buffer to it. -/
theorem popTags_some {ended : Tag} {metastack : TagStack} (h : popTags pd raw = .ok pd')
    (hpop : pd.metastack.popOnMatch raw = .ok (some ended, metastack)) :
    ∃ storedAs, metanameStoredAs pd.config ended.baked = .ok storedAs ∧
      pd'.metanames.content =
        addedText pd.metaBuf (storedAs :: cascadeNames { pd with metastack } storedAs)
          pd.metanames.content ∧
      pd'.metaBuf = [] ∧ pd'.metastack = metastack := by
  obtain ⟨pd₁, hprop, h⟩ := bind_ok_iff.mp h
  obtain ⟨pd₂, hmeta, h⟩ := bind_ok_iff.mp h
  obtain ⟨propstack, properties, propBuf, rfl, -⟩ := popProperty_fields hprop
  rw [popMetaname, hpop] at hmeta
  obtain ⟨storedAs, hstored, hcontent⟩ := flushBuffer_content hmeta
  obtain ⟨metanames, tokens, nwords, rfl⟩ := flushBuffer_ok hmeta
  refine ⟨storedAs, hstored, ?_⟩
  split at h
  · cases h
  · cases h
    exact ⟨hcontent, rfl, rfl⟩

/-- A stack that is popped is another one. -/
theorem popOnMatch_ne {stack stack' : TagStack} {ended : Tag}
    (h : stack.popOnMatch raw = .ok (some ended, stack')) : stack' ≠ stack := by
  obtain ⟨top, htop, h⟩ := bind_ok_iff.mp h
  have hcount : stack'.count = stack.count - 1 := by
    split at h
    · have hpop := Except.ok.inj h
      rw [TagStack.pop] at hpop
      split at hpop
      · cases hpop
      · split at hpop
        · cases hpop
          rfl
        · cases hpop
          rfl
    · cases h
  intro heq
  rw [heq] at hcount
  omega

end Stacks

/-! ## The tag of an attribute -/

section Nested

variable {env : TagEnv} {pd pd' : ParserData} {m lowered value : XmlStr}
  {xmlnsPrefix : Option XmlStr}

/-- What an XML tag without attributes is baked to. -/
theorem BakesPlain.xml {pd₁ : ParserData} {baked : XmlStr} (hxml : pd.isHtml = false)
    (hnorm : normalizeTag env pd m xmlnsPrefix = .ok lowered)
    (h : BakesPlain env pd m xmlnsPrefix pd₁ baked) :
    baked = aliasTag pd lowered ∧ ∃ pd₂,
      undefXmlTag { pd with tag := .null, bumpWord := true } lowered = .ok pd₂ ∧
      pd₁ = { pd₂ with tag := .live baked } := by
  obtain ⟨swishtag, pd₂, hnorm', hplain, hbaked, rfl⟩ := h
  cases hnorm.symm.trans hnorm'
  rw [plainTag, if_neg (by simp [hxml])] at hplain
  obtain ⟨n, hcalm⟩ := undefXmlTag_calm hplain
  refine ⟨?_, pd₂, hplain, rfl⟩
  rw [hbaked, aliasTag, aliasTag, hcalm.config.tagAliases, hcalm.domstack]

theorem BakesPlain.sameMetas {pd₁ : ParserData} {baked : XmlStr}
    (h : BakesPlain env pd m xmlnsPrefix pd₁ baked) :
    SameMetas pd pd₁ ∧ Extends pd.config pd₁.config := by
  obtain ⟨swishtag, pd₂, -, hplain, -, rfl⟩ := h
  unfold plainTag at hplain
  split at hplain
  · cases hplain
    obtain ⟨b, hbump⟩ := htmlBump_eq env { pd with tag := .null } swishtag
    rw [hbump]
    exact ⟨⟨rfl, rfl, rfl, rfl⟩, .refl _⟩
  · have hsame := undefXmlTag_sameMetas hplain
    have hextends := undefXmlTag_extends hplain
    exact ⟨⟨hsame.metaBuf, hsame.metastack, hsame.cascade, hsame.content⟩, hextends⟩

/-- A nested tag step by step: its name is looked up, it is pushed, filled, looked up again and
popped. -/
theorem nestedTag_steps (hxml : pd.isHtml = false)
    (hnorm : normalizeTag env pd m xmlnsPrefix = .ok lowered)
    (hok : nestedTag env pd m value xmlnsPrefix = .ok pd') :
    ∃ pd₁ pd₂ pd₃ pd₄,
      undefXmlTag { pd with tag := .null, bumpWord := true } lowered = .ok pd₁ ∧
      pushTags { pd₁ with tag := .live (aliasTag pd lowered) } m
        (some (aliasTag pd lowered)) = .ok pd₂ ∧
      SameMetas (bufferCharacters pd₂ value) pd₃ ∧ Extends pd₁.config pd₃.config ∧
      popTags pd₃ m = .ok pd₄ ∧ pd' = { pd₄ with tag := .freed } := by
  obtain ⟨pd₂, pd₄, hopen, hclose, rfl⟩ := nestedTag_ok hok
  obtain ⟨pd₀, baked, hbake, hpush⟩ := openTagPlain_ok hopen
  obtain ⟨pd₃, baked', hbake', hpop⟩ := closeTag_ok hclose
  obtain ⟨hbaked, pd₁, hundef, rfl⟩ :=
    @BakesPlain.xml env { pd with bumpWord := true } m lowered xmlnsPrefix pd₀ baked hxml hnorm
      hbake
  have hbaked : baked = aliasTag pd lowered := hbaked
  subst hbaked
  obtain ⟨hsame, hextends⟩ := hbake'.sameMetas
  obtain ⟨-, -, hconfig, -⟩ := pushTags_ok hpush
  rw [bufferCharacters_config, hconfig] at hextends
  exact ⟨pd₁, pd₂, pd₃, pd₄, hundef, hpush, hsame, hextends, hpop, rfl⟩

/-- The dotted path of a nested tag. -/
def nestedContext (pd : ParserData) (lowered : XmlStr) : XmlStr :=
  flattenTagStack (aliasTag pd lowered) pd.domstack Swish.dot

theorem nested_domContext {pd₁ : ParserData}
    (hundef : undefXmlTag { pd with tag := .null, bumpWord := true } lowered = .ok pd₁) :
    domContext { pd₁ with tag := .live (aliasTag pd lowered) } m (some (aliasTag pd lowered)) =
      nestedContext pd lowered := by
  obtain ⟨n, hcalm⟩ := undefXmlTag_calm hundef
  exact congrArg (flattenTagStack (aliasTag pd lowered) · Swish.dot) hcalm.domstack

theorem bufferCharacters_fields (pd : ParserData) (ch : XmlStr) :
    ∃ metaBuf propBuf bumpWord,
      bufferCharacters pd ch = { pd with metaBuf, propBuf, bumpWord } := by
  rw [bufferCharacters]
  split
  · exact ⟨_, _, _, rfl⟩
  · exact ⟨_, _, _, rfl⟩

/-- Where the buffer was empty it holds the text, unless that is hidden. -/
theorem bufferCharacters_metas (pd : ParserData) (hempty : pd.metaBuf = []) (ch : XmlStr) :
    SameMetas { pd with metaBuf := if pd.ignoreContent = 0 then ch else [] }
      (bufferCharacters pd ch) := by
  rw [bufferCharacters]
  by_cases hshown : pd.ignoreContent = 0
  · rw [if_neg (not_not.mpr hshown), if_pos hshown]
    refine ⟨?_, rfl, rfl, rfl⟩
    simp [bufferText, hempty]
  · rw [if_pos hshown, if_neg hshown]
    exact ⟨hempty, rfl, rfl, rfl⟩

/-- A nested tag that is a MetaName: the text in front of it goes to the innermost MetaName, its
own text to the name it is pushed under, and the stack is as before. -/
theorem nestedTag_key (hxml : pd.isHtml = false) (hcounted : pd.metastack.Counted)
    (hnorm : normalizeTag env pd m xmlnsPrefix = .ok lowered)
    (hok : nestedTag env pd m value xmlnsPrefix = .ok pd') {pd₁ : ParserData}
    (hundef : undefXmlTag { pd with tag := .null, bumpWord := true } lowered = .ok pd₁)
    (hkey : isKey pd₁.config.metanames (some (aliasTag pd lowered)) (nestedContext pd lowered) =
      true) :
    ∃ top first baked second, pd.metastack.head = .ok top ∧
      metanameStoredAs pd₁.config top.baked = .ok first ∧
      pushedName pd₁.config (some (aliasTag pd lowered)) (nestedContext pd lowered) = .ok baked ∧
      metanameStoredAs pd'.config baked = .ok second ∧ Extends pd₁.config pd'.config ∧
      pd'.metanames.content =
        addedText (if pd₁.ignoreContent = 0 then value else []) (second :: cascadeNames pd second)
          (addedText pd.metaBuf (first :: cascadeNames pd first) pd.metanames.content) ∧
      pd'.metaBuf = [] ∧ pd'.metastack = pd.metastack := by
  obtain ⟨pd₁', pd₂, pd₃, pd₄, hundef', hpush, hclosing, hextends, hpop, rfl⟩ :=
    nestedTag_steps hxml hnorm hok
  cases hundef.symm.trans hundef'
  have hsame := undefXmlTag_sameMetas hundef
  -- the start of the nested tag
  obtain ⟨⟨⟨top, first, htop, hfirst, hcontent⟩, hempty⟩, baked, hbaked, hmetastack⟩ :=
    pushTags_key (nested_domContext hundef) hkey hpush
  obtain ⟨-, -, hconfig₂, hcalm₂⟩ := pushTags_ok hpush
  have hhidden : pd₂.ignoreContent = pd₁.ignoreContent := hcalm₂.ignoreContent
  have hfilled := (bufferCharacters_metas pd₂ hempty value).trans hclosing
  -- and its end
  have hstack₃ : pd₃.metastack = pd.metastack.push m baked Swish.domChar :=
    hfilled.metastack.trans (hmetastack.trans
      (congrArg (TagStack.push · m baked Swish.domChar) hsame.metastack))
  have hpopped : pd₃.metastack.popOnMatch m = .ok (some ⟨m, baked,
      flattenTagStack baked pd.metastack Swish.domChar, pd.metastack.count⟩, pd.metastack) := by
    rw [hstack₃, TagStack.popOnMatch_cons hcounted.push TagStack.push_tags, if_pos rfl]
    simp [TagStack.push]
  obtain ⟨second, hsecond, hcontent₄, hempty₄, hstack₄⟩ := popTags_some hpop hpopped
  obtain ⟨_, _, _, -, -, -, hconfig₄, -⟩ := popTags_ok hpop
  have hcascade : pd₃.config.flags.cascadeMetaContext = pd.config.flags.cascadeMetaContext :=
    hfilled.cascade.trans ((congrArg (·.flags.cascadeMetaContext) hconfig₂).trans hsame.cascade)
  refine ⟨top, first, baked, second, ?_, hfirst, hbaked, ?_, ?_, ?_, hempty₄, hstack₄⟩
  · exact hsame.metastack ▸ htop
  · exact hconfig₄ ▸ hsecond
  · exact hconfig₄ ▸ hextends
  · show pd₄.metanames.content = _
    have hbuf : pd₃.metaBuf = if pd₁.ignoreContent = 0 then value else [] := by
      rw [hfilled.metaBuf, hhidden]
    have hnames : cascadeNames { pd₃ with metastack := pd.metastack } second =
        cascadeNames pd second := by
      simp only [cascadeNames, hcascade]
    have hfirstNames : cascadeNames { pd₁ with tag := .live (aliasTag pd lowered) } first =
        cascadeNames pd first := hsame.cascadeNames
    rw [hcontent₄, hnames, hbuf, hfilled.content, hcontent, hfirstNames, hsame.metaBuf,
      hsame.content]

/-- A nested tag that is no MetaName adds nothing, unless it pops another one. -/
theorem nestedTag_notKey (hxml : pd.isHtml = false)
    (hnorm : normalizeTag env pd m xmlnsPrefix = .ok lowered)
    (hok : nestedTag env pd m value xmlnsPrefix = .ok pd') {pd₁ : ParserData}
    (hundef : undefXmlTag { pd with tag := .null, bumpWord := true } lowered = .ok pd₁)
    (hkey : isKey pd₁.config.metanames (some (aliasTag pd lowered)) (nestedContext pd lowered) =
      false) (hstack : pd'.metastack = pd.metastack) :
    pd'.metanames.content = pd.metanames.content := by
  obtain ⟨pd₁', pd₂, pd₃, pd₄, hundef', hpush, hclosing, -, hpop, rfl⟩ :=
    nestedTag_steps hxml hnorm hok
  cases hundef.symm.trans hundef'
  have hsame := undefXmlTag_sameMetas hundef
  have hpushed := pushTags_notKey (nested_domContext hundef) hkey hpush
  obtain ⟨metaBuf, propBuf, bumpWord, hbuffered⟩ := bufferCharacters_fields pd₂ value
  rw [hbuffered] at hclosing
  have hstack₃ : pd₃.metastack = pd.metastack :=
    hclosing.metastack.trans (hpushed.metastack.trans hsame.metastack)
  have hcontent₃ : pd₃.metanames.content = pd.metanames.content :=
    hclosing.content.trans (hpushed.content.trans hsame.content)
  obtain ⟨_, st, _, -, hpopped, -, -, -⟩ := popTags_ok hpop
  cases st with
  | none => exact (popTags_none hpop hpopped).trans hcontent₃
  | some ended => exact absurd (hstack.trans hstack₃.symm) (popOnMatch_ne hpopped)

end Nested

/-! ## Where the value goes -/

/-- The value of an attribute is in the buffer of its MetaName and nowhere else, behind the text
so far, which went to the innermost MetaName. -/
structure AttributeIndexed (pd pd' : ParserData) (m value : XmlStr) : Prop where
  content : ∃ top first, pd.metastack.head = .ok top ∧
    metanameStoredAs pd'.config top.baked = .ok first ∧
    pd'.metanames.content = addedText value [m]
      (addedText pd.metaBuf (first :: cascadeNames pd first) pd.metanames.content)
  metaBuf : pd'.metaBuf = []
  metastack : pd'.metastack = pd.metastack

/-- The name that a nested tag is pushed under. -/
def nestedName (pd : ParserData) (lowered : XmlStr) : XmlStr :=
  if nestedContext pd lowered ∈ pd.config.properties then nestedContext pd lowered
  else aliasTag pd lowered

/-- The dotted path of a nested tag does not become a PropertyName with the tag itself. -/
def NestedKept (pd : ParserData) (lowered : XmlStr) : Prop :=
  pd.config.flags.undefMetas = .autoall →
    Defined pd lowered ∨ nestedContext pd lowered ≠ lowered

/-- The name of an attribute's tag, normalised again to `lowered`, still stands for its
MetaName. -/
structure AttributeResolves (pd : ParserData) (m lowered : XmlStr) : Prop where
  shown : Defined pd lowered ∨ pd.config.flags.undefMetas ≠ .ignore
  kept : NestedKept pd lowered
  stored : metanameStoredAs pd.config (nestedName pd lowered) = .ok m
  alone : cascadeNames pd m = []

section Value

variable {env : TagEnv} {pd pd' pd₁ : ParserData} {m lowered value : XmlStr}
  {xmlnsPrefix : Option XmlStr}

/-- The name a nested tag is pushed under: one that is new where the path has just become a
PropertyName. -/
theorem pushedName_nested
    (hundef : undefXmlTag { pd with tag := .null, bumpWord := true } lowered = .ok pd₁) :
    (NestedKept pd lowered ∧ pushedName pd₁.config (some (aliasTag pd lowered))
        (nestedContext pd lowered) = .ok (nestedName pd lowered)) ∨
      (¬ NestedKept pd lowered ∧ lowered ∉ pd.config.metanames ∧
        pushedName pd₁.config (some (aliasTag pd lowered)) (nestedContext pd lowered) =
          .ok lowered) := by
  have hmem := undefXmlTag_properties hundef (nestedContext pd lowered)
  by_cases hkept : NestedKept pd lowered
  · refine .inl ⟨hkept, ?_⟩
    have hsame : nestedContext pd lowered ∈ pd₁.config.properties ↔
        nestedContext pd lowered ∈ pd.config.properties := by
      refine hmem.trans (or_iff_left ?_)
      rintro ⟨heq, hnot, hmode⟩
      exact (hkept hmode).elim hnot fun hne => hne heq
    simp only [pushedName, nestedName, hsame, dupTag]
    split <;> rfl
  · have hnew : pd.config.flags.undefMetas = .autoall ∧ ¬ Defined pd lowered ∧
        nestedContext pd lowered = lowered := by
      simpa [NestedKept] using hkept
    refine .inr ⟨hkept, fun hlowered => hnew.2.1 (.inl hlowered), ?_⟩
    rw [pushedName, if_pos (hmem.mpr (.inr ⟨hnew.2.2, hnew.2.1, hnew.1⟩)), hnew.2.2]

/-- What is stored under a name of the stack is a key by then. -/
theorem nested_isKey (hextends : Extends pd.config pd₁.config)
    (hstored : metanameStoredAs pd.config (nestedName pd lowered) = .ok m) :
    isKey pd₁.config.metanames (some (aliasTag pd lowered)) (nestedContext pd lowered) = true := by
  have hmem : nestedName pd lowered ∈ pd₁.config.metanames := by
    have hstored' := metanameStoredAs_extends hextends hstored
    by_contra hnot
    rw [metanameStoredAs, AList.lookup_eq_none.mpr hnot] at hstored'
    cases hstored'
  rw [nestedName] at hmem
  split at hmem
  · simp [isKey, hmem]
  · simp [isKey, tagIn, hmem]

/-- Where the value arrives the tag of the attribute is a MetaName. -/
theorem AttributeIndexed.isKey (h : AttributeIndexed pd pd' m value) (hxml : pd.isHtml = false)
    (hblank : strAllWs (cstr value) = false)
    (hnorm : normalizeTag env pd m xmlnsPrefix = .ok lowered)
    (hok : nestedTag env pd m value xmlnsPrefix = .ok pd')
    (hundef : undefXmlTag { pd with tag := .null, bumpWord := true } lowered = .ok pd₁) :
    isKey pd₁.config.metanames (some (aliasTag pd lowered)) (nestedContext pd lowered) = true := by
  by_contra hnot
  obtain ⟨top, first, -, -, hcontent⟩ := h.content
  have hsame := nestedTag_notKey hxml hnorm hok hundef (by simpa using hnot) h.metastack
  have hle := length_le_addedText pd.metaBuf (first :: cascadeNames pd first)
    pd.metanames.content m
  have hlt := length_lt_addedText hblank (addedText pd.metaBuf (first :: cascadeNames pd first)
    pd.metanames.content) m
  rw [← hcontent, hsame] at hlt
  omega

/-- The tag of an attribute brings the value to the MetaName exactly if its name still stands for
it. -/
theorem nestedTag_indexed_iff (hxml : pd.isHtml = false) (hshown : pd.ignoreContent = 0)
    (hcounted : pd.metastack.Counted) (hm : m ∈ pd.config.metanames)
    (hblank : strAllWs (cstr value) = false)
    (hnorm : normalizeTag env pd m xmlnsPrefix = .ok lowered)
    (hok : nestedTag env pd m value xmlnsPrefix = .ok pd') :
    AttributeIndexed pd pd' m value ↔ AttributeResolves pd m lowered := by
  obtain ⟨pd₁, -, -, -, hundef, -⟩ := nestedTag_steps hxml hnorm hok
  have hextends₁ := undefXmlTag_extends hundef
  change Extends pd.config pd₁.config at hextends₁
  have hhidden := undefXmlTag_shown_iff hundef hshown
  change pd₁.ignoreContent = 0 ↔ Defined pd lowered ∨ pd.config.flags.undefMetas ≠ .ignore
    at hhidden
  constructor
  · intro h
    obtain ⟨top', first', htop', hfirst', hcontent'⟩ := h.content
    obtain ⟨top, first, baked, second, htop, hfirst, hbaked, hsecond, hextends, hcontent, -, -⟩ :=
      nestedTag_key hxml hcounted hnorm hok hundef (h.isKey hxml hblank hnorm hok hundef)
    cases htop.symm.trans htop'
    cases (metanameStoredAs_extends hextends hfirst).symm.trans hfirst'
    rw [hcontent] at hcontent'
    have hshown₁ : pd₁.ignoreContent = 0 := by
      by_contra hnot
      rw [if_neg hnot, addedText_nil] at hcontent'
      exact addedText_singleton_ne hblank _ _ hcontent'.symm
    rw [if_pos hshown₁, addedText_singleton_iff hblank] at hcontent'
    obtain ⟨rfl, halone⟩ := List.cons.inj hcontent'
    rw [metanameStoredAs_extends_iff (hextends₁.trans hextends) hm] at hsecond
    rcases pushedName_nested hundef with ⟨hkept, hname⟩ | ⟨-, hnew, hname⟩
    · cases hname.symm.trans hbaked
      exact ⟨hhidden.mp hshown₁, hkept, hsecond, halone⟩
    · cases hname.symm.trans hbaked
      rw [metanameStoredAs, AList.lookup_eq_none.mpr hnew] at hsecond
      cases hsecond
  · rintro ⟨hdefined, hkept, hstored, halone⟩
    obtain ⟨top, first, baked, second, htop, hfirst, hbaked, hsecond, hextends, hcontent, hempty,
      hstack⟩ := nestedTag_key hxml hcounted hnorm hok hundef (nested_isKey hextends₁ hstored)
    rcases pushedName_nested hundef with ⟨-, hname⟩ | ⟨hnot, -⟩
    · cases hname.symm.trans hbaked
      cases (metanameStoredAs_extends (hextends₁.trans hextends) hstored).symm.trans hsecond
      rw [if_pos (hhidden.mpr hdefined), halone] at hcontent
      exact ⟨⟨top, first, htop, metanameStoredAs_extends hextends hfirst, hcontent⟩, hempty, hstack⟩
    · exact absurd hkept hnot

/-- A name that is not changed by the second time stands for itself, where neither an alias nor a
PropertyName has its dotted path. -/
theorem attributeResolves_same {found : MetaName}
    (hlook : pd.config.metanames.lookup m = some found)
    (hnull : found.aliasFor = .null) (halias : m ∉ pd.config.tagAliases)
    (hpath : flattenTagStack m pd.domstack Swish.dot ∉ pd.config.tagAliases)
    (hprop : flattenTagStack m pd.domstack Swish.dot ∉ pd.config.properties)
    (hcascade : pd.config.flags.cascadeMetaContext = false) : AttributeResolves pd m m := by
  have hmem : m ∈ pd.config.metanames := mem_of_lookup hlook
  have hself : aliasTag pd m = m := by
    simp [aliasTag, AList.lookup_eq_none.mpr halias, AList.lookup_eq_none.mpr hpath]
  have hname : nestedName pd m = m := by
    rw [nestedName, nestedContext, hself, if_neg hprop]
  refine ⟨.inl (.inl hmem), fun _ => .inl (.inl hmem), ?_, by simp [cascadeNames, hcascade]⟩
  rw [hname, metanameStoredAs, hlook]
  simp [hnull]

/-- A name that is unknown the second time stands for no MetaName. -/
theorem not_attributeResolves_unknown (hmeta : lowered ∉ pd.config.metanames)
    (halias : lowered ∉ pd.config.tagAliases)
    (hpath : flattenTagStack lowered pd.domstack Swish.dot ∉ pd.config.tagAliases)
    (hprop : flattenTagStack lowered pd.domstack Swish.dot ∉ pd.config.properties) :
    ¬ AttributeResolves pd m lowered := by
  rintro ⟨-, -, hstored, -⟩
  have hself : aliasTag pd lowered = lowered := by
    simp [aliasTag, AList.lookup_eq_none.mpr halias, AList.lookup_eq_none.mpr hpath]
  have hname : nestedName pd lowered = lowered := by
    rw [nestedName, nestedContext, hself, if_neg hprop]
  rw [hname, metanameStoredAs, AList.lookup_eq_none.mpr hmeta] at hstored
  cases hstored

end Value

/-! ## The start tag -/

/-- The attribute loop brings the value of an attribute to its MetaName and nowhere else, and the
rest of the start tag adds nothing. -/
def ReceivesValue (env : TagEnv) (pd : ParserData) (swishtag : XmlStr)
    (att : XmlStr × Option XmlStr) (xmlnsPrefix : Option XmlStr) (m value : XmlStr)
    (pd' : ParserData) : Prop :=
  ∃ s, bakeAttribute env xmlnsPrefix ({ pd with tag := .null, bumpWord := true }, swishtag) att =
      .ok s ∧
    AttributeIndexed pd s.1 m value ∧ pd'.metanames.content = s.1.metanames.content

section Start

variable {env : TagEnv} {pd pd' : ParserData} {tag swishtag named m value lowered : XmlStr}
  {att : XmlStr × Option XmlStr} {xmlnsPrefix : Option XmlStr}

/-- With nothing in the meta buffer a tag that is pushed adds nothing. -/
theorem pushTags_content {baked : Option XmlStr} (hempty : pd.metaBuf = [])
    (h : pushTags pd tag baked = .ok pd') : pd'.metanames.content = pd.metanames.content := by
  cases hkey : isKey pd.config.metanames baked (domContext pd tag baked) with
  | false => exact (pushTags_notKey rfl hkey h).content
  | true =>
      obtain ⟨⟨⟨top, first, -, -, hcontent⟩, -⟩, -⟩ := pushTags_key rfl hkey h
      rw [hcontent, hempty, addedText_nil]

/-- An attribute whose name is a MetaName is a nested tag. -/
theorem bakeAttribute_metaname {s : ParserData × XmlStr}
    (hnames : attributeNames env pd swishtag att = .ok (named, m, value))
    (hm : m ∈ pd.config.metanames)
    (h : bakeAttribute env xmlnsPrefix (pd, swishtag) att = .ok s) :
    nestedTag env pd m value xmlnsPrefix = .ok s.1 := by
  obtain ⟨names, hnames', h⟩ := bind_ok_iff.mp h
  cases hnames.symm.trans hnames'
  obtain ⟨pd₁, hundef, h⟩ := bind_ok_iff.mp h
  obtain ⟨pd₂, htag, h⟩ := bind_ok_iff.mp h
  cases h
  rw [undefXmlAttr, if_pos hm] at hundef
  cases hundef
  rwa [attributeTag, if_pos hm] at htag

end Start

/-! ## The number of MetaNames on the stack -/

section Counted

variable {env : SaxEnv} {fuel : Nat} {pd pd' : ParserData} {events : List SaxEvent}

theorem popOnMatch_counted {stack stack' : TagStack} {raw : XmlStr} {st : Option Tag}
    (h : stack.Counted) (hpop : stack.popOnMatch raw = .ok (st, stack')) : stack'.Counted := by
  obtain ⟨top, -, hpop⟩ := bind_ok_iff.mp hpop
  split at hpop
  · have hrest : stack' = stack.pop.2 := (congrArg Prod.snd (Except.ok.inj hpop)).symm
    rw [hrest]
    exact h.pop
  · cases hpop
    exact h

theorem metaCounted_tagKept :
    TagKept (fun _ _ => True) (fun _ _ _ => True) fun pd => pd.metastack.Counted where
  calm _ _ h hcalm := hcalm.metastack ▸ h
  undefXmlTag _ _ _ h _ _ hok := by
    obtain ⟨n, hcalm⟩ := undefXmlTag_calm hok
    rw [hcalm.metastack]
    exact h
  undefHtmlMeta _ _ _ h hok := by
    obtain ⟨n, hcalm⟩ := undefHtmlMeta_calm hok
    rw [hcalm.metastack]
    exact ⟨h, h⟩
  push _ _ _ _ h _ hok := by
    obtain ⟨-, hpushes, -, -⟩ := pushTags_ok hok
    exact hpushes.pushedTag.2.2 h
  pop _ _ _ h hok := by
    obtain ⟨_, _, _, -, hpopped, -, -, -⟩ := popTags_ok hok
    exact popOnMatch_counted h hpopped
  mono _ _ _ h _ _ := h

/-- A parser counts the MetaNames on its stack right in every run. -/
theorem run_metaCounted (h : pd.metastack.Counted)
    (hrun : run (saxStep env fuel) pd events = .ok pd') : pd'.metastack.Counted := by
  refine invariant (I := fun pd => pd.metastack.Counted) ?_ h hrun
  intro pd₁ e pd₂ hcounted hstep
  refine saxEvent_kept metaCounted_tagKept ?_ ?_ hcounted (eventMeets_free e) hstep
  · intro _ _ _ _ hcounted' hinclude
    rw [(xincludeDeep_calm hinclude).metastack]
    exact hcounted'
  · intro cmt _
    obtain ⟨n, hcalm⟩ := mycomments_calm pd₁ cmt
    rw [hcalm.metastack]
    exact hcounted

theorem metaCounted_initParserData (config : Config) (analyzer : Analyzer) (docinfo : DocInfo) :
    (initParserData config analyzer docinfo).metastack.Counted := TagStack.counted_empty.push

end Counted

/-- The default config with a MetaName `p:a.x`, where prefixes count. -/
def prefixConfig : Config :=
  let c := configSetDefault (lit "C")
  { c with
    metanames := c.metanames.insert (lit "p:a.x") (metanameInit (lit "p:a.x"))
    flags := { c.flags with ignoreXmlns := false } }

end LibSwish3
