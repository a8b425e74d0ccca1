import LibSwish3.StackNames

/-!
# Elements and their entries

A tag is pushed by what its baked name and its context are, and popped by its raw name alone.
An end tag therefore takes the entry of another element along when its own start pushed
nothing and the innermost entry happens to have its raw name.  `OwnTags` rules that out; then
each end tag pops what its start tag pushed, and the stacks are those of the open elements.

## Main definitions

* `OpenElement` — an open element with the entries its start pushed.
* `OwnTags` — a step whose end tags meet no entry of another element under their raw name.
* `run_ownTags` — in a run of such steps, elements pop their own entries.
-/

namespace LibSwish3

open Runs Tables

/-- An open element and what its start tag pushed. -/
structure OpenElement where
  raw : XmlStr
  metaTag : Option Tag
  propTag : Option Tag

/-- What a call left on top of a stack. -/
def pushedTag (before after : TagStack) : Option Tag :=
  if before.tags.length < after.tags.length then after.tags.head? else none

/-- The open elements after an event. -/
def openElements (before : ParserData) (e : SaxEvent) (after : ParserData)
    (elements : List OpenElement) : List OpenElement :=
  let opened (raw : XmlStr) : List OpenElement :=
    ⟨raw, pushedTag before.metastack after.metastack,
      pushedTag before.propstack after.propstack⟩ :: elements
  match e with
  | .startElement name _ => opened name
  | .startElementNs localname _ _ _ => opened localname
  | .endElement _ | .endElementNs _ _ => elements.tail
  | _ => elements

/-- The callbacks, keeping the open elements on the side. -/
def nestingStep (env : SaxEnv) (fuel : Nat) :
    ParserData × List OpenElement → SaxEvent → Swish (ParserData × List OpenElement) :=
  withGhost (saxStep env fuel) openElements

/-- Keeping the open elements changes no run of the callbacks. -/
theorem exists_run_nestingStep_iff {env : SaxEnv} {fuel : Nat} {pd pd' : ParserData}
    {elements : List OpenElement} {events : List SaxEvent} :
    (∃ elements', run (nestingStep env fuel) (pd, elements) events = .ok (pd', elements')) ↔
      run (saxStep env fuel) pd events = .ok pd' :=
  exists_run_withGhost_iff elements

/-! ## The condition -/

/-- The head of a stack does not have the raw name. -/
def HeadNot (stack : TagStack) (raw : XmlStr) : Prop :=
  stack.tags.head?.map Tag.raw ≠ some raw

instance (stack : TagStack) (raw : XmlStr) : Decidable (HeadNot stack raw) := by
  rw [HeadNot]
  infer_instance

/-- A nested tag that is not pushed on a stack does not have the raw name of its head. -/
def NestedOwn (env : TagEnv) (pd : ParserData) (name : XmlStr) (xmlnsPrefix : Option XmlStr) :
    Prop :=
  ∀ pd₁ baked, BakesPlain env { pd with bumpWord := true } name xmlnsPrefix pd₁ baked →
    (isKey pd₁.config.metanames (some baked) (domContext pd₁ name (some baked)) = false →
      HeadNot pd.metastack name) ∧
    (isKey pd₁.config.properties (some baked) (domContext pd₁ name (some baked)) = false →
      HeadNot pd.propstack name)

/-- The start of an element: the tags nested in it. -/
def StartOwn (env : TagEnv) (pd : ParserData) (tag : XmlStr) (atts : Option Atts)
    (xmlnsPrefix : Option XmlStr) : Prop :=
  BakeMeets env (NestedOwn env) (fun _ _ => True) { pd with tag := .null } tag atts xmlnsPrefix

/-- The end of an element: it is the innermost open one, and on a stack on which its start
pushed nothing, the head does not have its raw name. -/
def EndOwn (pd : ParserData) (elements : List OpenElement) (raw : XmlStr) : Prop :=
  ∃ el rest, elements = el :: rest ∧ el.raw = raw ∧
    (el.metaTag = none → HeadNot pd.metastack raw) ∧
    (el.propTag = none → HeadNot pd.propstack raw)

/-- The condition on an event. -/
def OwnTags (env : SaxEnv) (fuel : Nat) (s : ParserData × List OpenElement) : SaxEvent → Prop
  | .startElement name atts => StartOwn env.toTagEnv s.1 name atts none
  | .endElement name => EndOwn s.1 s.2 name
  | .startElementNs localname xmlnsPrefix uri attributes =>
    ∀ pd₁, startXinclude env (xincludeDeep env fuel) s.1 localname uri (sax2Atts attributes) =
        .ok pd₁ →
      StartOwn env.toTagEnv pd₁ localname (sax2Atts attributes) xmlnsPrefix
  | .endElementNs localname _ => EndOwn s.1 s.2 localname
  | _ => True

/-! ## Pushing and popping one entry -/

section Stack

variable {α : Type} {config : Config} {hash : HashTable α} {raw context : XmlStr}
  {tag : Option XmlStr} {stack stack' : TagStack}

/-- Opening a tag pushes nothing or one entry with its raw name. -/
theorem Pushes.cases (h : Pushes config hash raw tag context stack stack') :
    (isKey hash tag context = false ∧ stack' = stack) ∨
      ∃ baked, stack' = stack.push raw baked Swish.domChar := by
  unfold Pushes at h
  split at h
  · obtain ⟨baked, -, rfl⟩ := h
    exact .inr ⟨baked, rfl⟩
  · rename_i hkey
    exact .inl ⟨by simpa using hkey, h⟩

/-- What was pushed is what is now above the old entries, under the raw name. -/
theorem Pushes.pushedTag (h : Pushes config hash raw tag context stack stack') :
    stack'.tags = (pushedTag stack stack').toList ++ stack.tags ∧
      (∀ t, LibSwish3.pushedTag stack stack' = some t → t.raw = raw) ∧
      (stack.Counted → stack'.Counted) := by
  obtain ⟨-, rfl⟩ | ⟨baked, rfl⟩ := h.cases
  · simp [LibSwish3.pushedTag]
  · refine ⟨by simp [LibSwish3.pushedTag], ?_, TagStack.Counted.push⟩
    intro t ht
    simp only [LibSwish3.pushedTag, TagStack.push_tags, List.length_cons, Nat.lt_succ_self,
      if_true, List.head?_cons, Option.some.injEq] at ht
    rw [← ht]

/-- A stack whose head has another name is not popped. -/
theorem popOnMatch_headNot {st : Option Tag} (hnot : HeadNot stack raw)
    (h : stack.popOnMatch raw = .ok (st, stack')) : st = none ∧ stack' = stack := by
  obtain ⟨top, htop, h⟩ := bind_ok_iff.mp h
  have hne : top.raw ≠ raw := by
    intro heq
    exact hnot (by rw [TagStack.head_ok_iff.mp htop, Option.map_some, heq])
  rw [if_neg hne] at h
  cases h
  exact ⟨rfl, rfl⟩

/-- Popping the raw name that was pushed last gives back the old stack. -/
theorem popOnMatch_push {baked : XmlStr} {st : Option Tag} (hcounted : stack.Counted)
    (h : (stack.push raw baked Swish.domChar).popOnMatch raw = .ok (st, stack')) :
    stack' = stack := by
  rw [TagStack.popOnMatch_cons hcounted.push TagStack.push_tags, if_pos rfl] at h
  cases h
  simp [TagStack.push]

/-- Opening a tag and closing it gives back the old stack. -/
theorem Pushes.popOnMatch {st : Option Tag} {stack'' : TagStack} (hcounted : stack.Counted)
    (hown : isKey hash tag context = false → HeadNot stack raw)
    (h : Pushes config hash raw tag context stack stack')
    (hpop : stack'.popOnMatch raw = .ok (st, stack'')) : stack'' = stack := by
  obtain ⟨hkey, rfl⟩ | ⟨baked, rfl⟩ := h.cases
  · exact (popOnMatch_headNot (hown hkey) hpop).2
  · exact popOnMatch_push hcounted hpop

/-- The end of an element pops the entry its start pushed, and nothing where it pushed
nothing. -/
theorem popOnMatch_own {own st : Option Tag} {rest : List Tag} (hcounted : stack.Counted)
    (htags : stack.tags = own.toList ++ rest) (hraw : ∀ t, own = some t → t.raw = raw)
    (hown : own = none → HeadNot stack raw)
    (h : stack.popOnMatch raw = .ok (st, stack')) :
    st = own ∧ stack'.tags = rest ∧ stack'.Counted := by
  cases own with
  | none =>
      obtain ⟨rfl, rfl⟩ := popOnMatch_headNot (hown rfl) h
      exact ⟨rfl, htags, hcounted⟩
  | some t =>
      have hcons : stack.tags = t :: rest := htags
      rw [TagStack.popOnMatch_cons hcounted hcons, if_pos (hraw t rfl)] at h
      cases h
      refine ⟨rfl, rfl, ?_⟩
      simp only [TagStack.Counted, hcons, List.length_cons] at hcounted ⊢
      omega

end Stack

/-! ## Tags nested in an element -/

/-- The meta stack and the property stack are the given ones. -/
structure StacksAre (metastack propstack : TagStack) (pd : ParserData) : Prop where
  metastack : pd.metastack = metastack
  propstack : pd.propstack = propstack

section Nested

variable {env : TagEnv} {pd pd' : ParserData} {metastack propstack : TagStack}

theorem StacksAre.calm (h : StacksAre metastack propstack pd) {n : Nat}
    (hcalm : Calm { pd with ignoreContent := n } pd') : StacksAre metastack propstack pd' :=
  ⟨hcalm.metastack.trans h.metastack, hcalm.propstack.trans h.propstack⟩

/-- A nested tag leaves the stacks as they were. -/
theorem nestedTag_stacks {name content : XmlStr} {xmlnsPrefix : Option XmlStr}
    (hm : metastack.Counted) (hp : propstack.Counted) (h : StacksAre metastack propstack pd)
    (hown : NestedOwn env pd name xmlnsPrefix)
    (hok : nestedTag env pd name content xmlnsPrefix = .ok pd') :
    StacksAre metastack propstack pd' := by
  obtain ⟨pd₁, pd₂, hopen, hclose, rfl⟩ := nestedTag_ok hok
  obtain ⟨pd₃, baked, hbake, hpush⟩ := openTagPlain_ok hopen
  obtain ⟨pd₄, baked', hbake', hpop⟩ := closeTag_ok hclose
  obtain ⟨n, hcalm⟩ := hbake.calm
  obtain ⟨n', hcalm'⟩ := hbake'.calm
  obtain ⟨hpushp, hpushm, -, -⟩ := pushTags_ok hpush
  obtain ⟨_, _, _, hpopp, hpopm, -, -, -⟩ := popTags_ok hpop
  obtain ⟨hownm, hownp⟩ := hown pd₃ baked hbake
  have hbuf := bufferCharacters_calm pd₁ content
  have hmeta₃ : pd₃.metastack = metastack := hcalm.metastack.trans h.metastack
  have hprop₃ : pd₃.propstack = propstack := hcalm.propstack.trans h.propstack
  have hmeta₄ : pd₄.metastack = pd₁.metastack := hcalm'.metastack.trans hbuf.metastack
  have hprop₄ : pd₄.propstack = pd₁.propstack := hcalm'.propstack.trans hbuf.propstack
  rw [hmeta₃] at hpushm
  rw [hprop₃] at hpushp
  rw [hmeta₄] at hpopm
  rw [hprop₄] at hpopp
  rw [h.metastack] at hownm
  rw [h.propstack] at hownp
  exact ⟨hpushm.popOnMatch hm hownm hpopm, hpushp.popOnMatch hp hownp hpopp⟩

theorem stacksAre_bakeKept (hm : metastack.Counted) (hp : propstack.Counted) :
    BakeKept env (NestedOwn env) (fun _ _ => True) (StacksAre metastack propstack) where
  calm pd _ h hcalm := h.calm (n := pd.ignoreContent) hcalm
  undefXmlTag _ _ _ h _ _ hok := by
    obtain ⟨n, hcalm⟩ := undefXmlTag_calm hok
    exact h.calm hcalm
  undefHtmlMeta _ _ _ h hok := by
    obtain ⟨n, hcalm⟩ := undefHtmlMeta_calm hok
    have hsame := h.calm hcalm
    exact ⟨hsame, ⟨hsame.metastack, hsame.propstack⟩⟩
  nested _ _ _ _ _ h hown hok := nestedTag_stacks hm hp h hown hok

/-- Opening an element pushes for the element itself and nothing else. -/
theorem openTag_stacks {tag : XmlStr} {atts : Option Atts} {xmlnsPrefix : Option XmlStr}
    (hm : pd.metastack.Counted) (hp : pd.propstack.Counted)
    (hown : StartOwn env pd tag atts xmlnsPrefix)
    (hok : openTag env pd tag atts xmlnsPrefix = .ok pd') :
    ∃ config baked context,
      Pushes config config.metanames tag baked context pd.metastack pd'.metastack ∧
      Pushes config config.properties tag baked context pd.propstack pd'.propstack := by
  obtain ⟨baked, pd₁, hbake, hpush⟩ := openTag_ok hok
  have hinit : StacksAre pd.metastack pd.propstack { pd with tag := .null } := ⟨rfl, rfl⟩
  have hsame : StacksAre pd.metastack pd.propstack pd₁ :=
    bakeTag_kept (stacksAre_bakeKept hm hp) hinit hown hbake
  obtain ⟨hpushp, hpushm, -, -⟩ := pushTags_ok hpush
  refine ⟨pd₁.config, baked, domContext pd₁ tag baked, ?_, ?_⟩
  · rw [← hsame.metastack]
    exact hpushm
  · rw [← hsame.propstack]
    exact hpushp

end Nested

/-! ## Runs -/

/-- The bottom entry of the meta stack. -/
def metaBottom : Tag := ⟨Swish.defaultMetaname, Swish.defaultMetaname, Swish.defaultMetaname, 0⟩

/-- The bottom entry of the property stack. -/
def propBottom : Tag := ⟨Swish.domStr, Swish.domStr, Swish.domStr, 0⟩

/-- The stacks hold the entries of the open elements, innermost first, above the bottom. -/
structure OwnStacks (pd : ParserData) (elements : List OpenElement) : Prop where
  metastack : pd.metastack.tags = elements.filterMap OpenElement.metaTag ++ [metaBottom]
  propstack : pd.propstack.tags = elements.filterMap OpenElement.propTag ++ [propBottom]
  metaCounted : pd.metastack.Counted
  propCounted : pd.propstack.Counted
  metaRaw : ∀ el ∈ elements, ∀ t, el.metaTag = some t → t.raw = el.raw
  propRaw : ∀ el ∈ elements, ∀ t, el.propTag = some t → t.raw = el.raw

section Runs

variable {env : SaxEnv} {fuel : Nat} {pd pd' : ParserData} {elements : List OpenElement}

theorem OwnStacks.calm {n : Nat} (h : OwnStacks pd elements)
    (hcalm : Calm { pd with ignoreContent := n } pd') : OwnStacks pd' elements where
  metastack := hcalm.metastack ▸ h.metastack
  propstack := hcalm.propstack ▸ h.propstack
  metaCounted := hcalm.metastack ▸ h.metaCounted
  propCounted := hcalm.propstack ▸ h.propCounted
  metaRaw := h.metaRaw
  propRaw := h.propRaw

theorem filterMap_cons_toList {β γ : Type} (f : β → Option γ) (b : β) (l : List β) :
    (b :: l).filterMap f = (f b).toList ++ l.filterMap f := by
  cases h : f b <;> simp [h]

/-- The start of an element adds it to the open ones. -/
theorem ownStacks_open {pd₀ : ParserData} {tag : XmlStr} {atts : Option Atts}
    {xmlnsPrefix : Option XmlStr} (h : OwnStacks pd₀ elements) (hcalm : Calm pd₀ pd)
    (hown : StartOwn env.toTagEnv pd tag atts xmlnsPrefix)
    (hok : openTag env.toTagEnv pd tag atts xmlnsPrefix = .ok pd') :
    OwnStacks pd' (⟨tag, pushedTag pd₀.metastack pd'.metastack,
      pushedTag pd₀.propstack pd'.propstack⟩ :: elements) := by
  have hpd : OwnStacks pd elements := h.calm (n := pd₀.ignoreContent) hcalm
  obtain ⟨config, baked, context, hpushm, hpushp⟩ :=
    openTag_stacks hpd.metaCounted hpd.propCounted hown hok
  rw [hcalm.metastack] at hpushm
  rw [hcalm.propstack] at hpushp
  obtain ⟨htagsm, hrawm, hcountm⟩ := hpushm.pushedTag
  obtain ⟨htagsp, hrawp, hcountp⟩ := hpushp.pushedTag
  refine ⟨?_, ?_, hcountm h.metaCounted, hcountp h.propCounted, ?_, ?_⟩
  · rw [htagsm, h.metastack, filterMap_cons_toList, List.append_assoc]
  · rw [htagsp, h.propstack, filterMap_cons_toList, List.append_assoc]
  · intro el hel
    rcases List.mem_cons.mp hel with rfl | hel
    · exact hrawm
    · exact h.metaRaw el hel
  · intro el hel
    rcases List.mem_cons.mp hel with rfl | hel
    · exact hrawp
    · exact h.propRaw el hel

/-- The end of an element pops exactly what its start pushed. -/
theorem ownStacks_close {tag : XmlStr} {xmlnsPrefix : Option XmlStr} (h : OwnStacks pd elements)
    (hown : EndOwn pd elements tag)
    (hok : closeTag env.toTagEnv pd tag xmlnsPrefix = .ok pd') : OwnStacks pd' elements.tail := by
  obtain ⟨el, rest, rfl, rfl, hownm, hownp⟩ := hown
  obtain ⟨pd₁, baked, hbake, hpop⟩ := closeTag_ok hok
  obtain ⟨n, hcalm⟩ := hbake.calm
  have h₁ := h.calm hcalm
  obtain ⟨_, _, _, hpopp, hpopm, -, -, -⟩ := popTags_ok hpop
  have hsamem : pd₁.metastack = pd.metastack := hcalm.metastack
  have hsamep : pd₁.propstack = pd.propstack := hcalm.propstack
  rw [← hsamem] at hownm
  rw [← hsamep] at hownp
  have htagsm := h₁.metastack
  have htagsp := h₁.propstack
  rw [filterMap_cons_toList, List.append_assoc] at htagsm htagsp
  obtain ⟨-, hrestm, hcountm⟩ := popOnMatch_own h₁.metaCounted htagsm
    (h.metaRaw el (by simp)) hownm hpopm
  obtain ⟨-, hrestp, hcountp⟩ := popOnMatch_own h₁.propCounted htagsp
    (h.propRaw el (by simp)) hownp hpopp
  exact ⟨hrestm, hrestp, hcountm, hcountp, fun e he => h.metaRaw e (List.mem_cons_of_mem _ he),
    fun e he => h.propRaw e (List.mem_cons_of_mem _ he)⟩

/-- One event. -/
theorem nestingStep_ownStacks {e : SaxEvent} {elements' : List OpenElement}
    (h : OwnStacks pd elements) (hown : OwnTags env fuel (pd, elements) e)
    (hok : nestingStep env fuel (pd, elements) e = .ok (pd', elements')) :
    OwnStacks pd' elements' := by
  obtain ⟨hstep, rfl⟩ := withGhost_ok_iff.mp hok
  cases e with
  | startDocument => cases hstep; exact h
  | endDocument => exact h.calm (n := pd.ignoreContent) (flushBuffer_calm hstep)
  | startElement name atts => exact ownStacks_open h (.refl pd) hown hstep
  | endElement name => exact ownStacks_close h hown hstep
  | startElementNs localname xmlnsPrefix uri attributes =>
      obtain ⟨pd₁, hinclude, hstep⟩ := bind_ok_iff.mp hstep
      have hcalm : Calm pd pd₁ :=
        startXinclude_kept (P := fun pd₁ => Calm pd pd₁)
          (fun _ _ _ _ h hinclude => h.trans (xincludeDeep_calm hinclude)) (.refl pd) hinclude
      exact ownStacks_open h hcalm (hown pd₁ hinclude) hstep
  | endElementNs localname xmlnsPrefix => exact ownStacks_close h hown hstep
  | characters ch =>
      cases hstep
      exact h.calm (n := pd.ignoreContent) (bufferCharacters_calm pd ch)
  | comment cmt =>
      cases hstep
      obtain ⟨n, hcalm⟩ := mycomments_calm pd cmt
      exact h.calm hcalm

theorem ownStacks_initParserData (config : Config) (analyzer : Analyzer) (docinfo : DocInfo)
    (isHtml : Bool) :
    OwnStacks { initParserData config analyzer docinfo with isHtml } [] where
  metastack := rfl
  propstack := rfl
  metaCounted := TagStack.counted_empty.push
  propCounted := TagStack.counted_empty.push
  metaRaw _ hel := absurd hel (by simp)
  propRaw _ hel := absurd hel (by simp)

/-- The end of an element removes the entries its start pushed, and no other. -/
def PopsOwn (s s' : ParserData × List OpenElement) : Prop :=
  ∀ el rest, s.2 = el :: rest →
    s.1.metastack.tags = el.metaTag.toList ++ s'.1.metastack.tags ∧
      s.1.propstack.tags = el.propTag.toList ++ s'.1.propstack.tags

/-- The event is the end of an element. -/
def SaxEvent.isEnd : SaxEvent → Bool
  | .endElement _ | .endElementNs _ _ => true
  | _ => false

/-- In a run whose steps meet the condition, every end tag removes from each stack exactly what
the start tag of its element pushed, and the stacks hold the entries of the open elements. -/
theorem run_ownTags {config : Config} {analyzer : Analyzer} {docinfo : DocInfo} {isHtml : Bool}
    {events : List SaxEvent} {s : ParserData × List OpenElement}
    (hown : Steps (nestingStep env fuel) (OwnTags env fuel)
      ({ initParserData config analyzer docinfo with isHtml }, []) events)
    (hrun : run (nestingStep env fuel)
      ({ initParserData config analyzer docinfo with isHtml }, []) events = .ok s) :
    (∀ pre e post s₁ s₂, events = pre ++ e :: post → e.isEnd = true →
      run (nestingStep env fuel)
        ({ initParserData config analyzer docinfo with isHtml }, []) pre = .ok s₁ →
      nestingStep env fuel s₁ e = .ok s₂ → PopsOwn s₁ s₂) ∧
    s.1.metastack.tags = s.2.filterMap OpenElement.metaTag ++ [metaBottom] ∧
    s.1.propstack.tags = s.2.filterMap OpenElement.propTag ++ [propBottom] := by
  have hstep : ∀ t e u, OwnStacks t.1 t.2 → OwnTags env fuel t e →
      nestingStep env fuel t e = .ok u → OwnStacks u.1 u.2 :=
    fun _ _ _ h howns hok => nestingStep_ownStacks h howns hok
  have hinit := ownStacks_initParserData config analyzer docinfo isHtml
  have hfinal := invariant_of_steps (I := fun t => OwnStacks t.1 t.2) hstep hinit hown hrun
  refine ⟨?_, hfinal.metastack, hfinal.propstack⟩
  intro pre e post s₁ s₂ heq hend hpre hok el rest hel
  have h₁ : OwnStacks s₁.1 s₁.2 := by
    rw [heq] at hown
    exact invariant_of_steps (I := fun t => OwnStacks t.1 t.2) hstep hinit hown.append_left hpre
  have h₂ := hstep s₁ e s₂ h₁ (hown pre e post s₁ heq hpre) hok
  have htail : s₂.2 = rest := by
    obtain ⟨-, helements⟩ := withGhost_ok_iff.mp hok
    rw [helements]
    cases e with
    | endElement name => simp [openElements, hel]
    | endElementNs localname xmlnsPrefix => simp [openElements, hel]
    | _ => simp [SaxEvent.isEnd] at hend
  rw [h₁.metastack, h₁.propstack, h₂.metastack, h₂.propstack, hel, htail, filterMap_cons_toList,
    filterMap_cons_toList, List.append_assoc, List.append_assoc]
  exact ⟨rfl, rfl⟩

end Runs

/-! ## An element inside one of the same name -/

/-- `<swish><XMLClassAttributes>class</XMLClassAttributes><MetaNames><a.x/></MetaNames></swish>` -/
def classAX : Reader where
  nodes := [startNode Swish.headerRoot [], startNode Swish.classAttributes [],
    textNode (lit "class"), endNode Swish.classAttributes, startNode Swish.metaSection [],
    startNode (lit "a.x") [], endNode Swish.metaSection, endNode Swish.headerRoot]
  complete := true
  text_not_blank := by decide

/-- Start tags and end tags match, seen from inside the open elements. -/
def Balanced : (elements : List XmlStr) → List SaxEvent → Prop
  | elements, [] => elements = []
  | elements, .startElementNs name _ _ _ :: es => Balanced (name :: elements) es
  | elements, .endElementNs name _ :: es => ∃ rest, elements = name :: rest ∧ Balanced rest es
  | elements, _ :: es => Balanced elements es

/-- `<a class="x"><a></a>` -/
def nestedA : List SaxEvent :=
  [.startElementNs (lit "a") none none [(lit "class", lit "x")],
    .startElementNs (lit "a") none none [], .endElementNs (lit "a") none]

/-- The inner element is no MetaName, and its end pops the entry of the outer one, which is
still open. -/
theorem run_pops_other_tag :
    ¬ ∀ henv hfuel lcCtype filenames config env fuel analyzer docinfo events rest s,
      mergeFiles henv hfuel (configSetDefault lcCtype) filenames = .ok config →
      Balanced [] (events ++ rest) →
      run (nestingStep env fuel) (initParserData config analyzer docinfo, []) events = .ok s →
      s.1.metastack.tags = s.2.filterMap OpenElement.metaTag ++ [metaBottom] := by
  intro h
  have hbalanced : Balanced [] (nestedA ++ [.endElementNs (lit "a") none]) :=
    ⟨_, rfl, _, rfl, rfl⟩
  have htags := h (.oneFile classAX) 1 (lit "C") [lit "a.xml"] _ .alone 0 .idle docinfoInit
    nestedA _ _ rfl hbalanced rfl
  exact absurd (congrArg List.length htags) (by decide +kernel)

theorem ownTags_titledPart : Steps (nestingStep .alone 0) (OwnTags .alone 0)
    (initParserData partConfig .idle docinfoInit, []) titledPart := by
  refine steps_cons_of_ok ?part rfl (steps_cons_of_ok trivial rfl (steps_cons_of_ok ?title rfl
    (steps_cons_of_ok trivial rfl (steps_cons_of_ok ?close rfl
      (steps_cons_of_ok trivial rfl (steps_cons_of_ok ?again rfl
        (steps_cons_of_ok trivial rfl steps_nil)))))))
  case close => exact ⟨_, _, rfl, rfl, fun h => absurd h (by decide +kernel),
    fun h => absurd h (by decide +kernel)⟩
  all_goals
    intro pd₁ hinclude
    cases hinclude
    exact fun swishtag _ => ⟨fun h => absurd h (by decide),
      fun _ => ⟨steps_nil, fun _ _ => trivial⟩⟩

/-- The part and the second title are on both stacks, the first title on none. -/
theorem run_ownTags_title : ∃ s,
    run (nestingStep .alone 0) (initParserData partConfig .idle docinfoInit, []) titledPart =
        .ok s ∧
      s.1.propstack.tags.map (·.raw) =
        [Swish.titleMetaname, lit "part", Swish.domStr] ∧
      s.1.metastack.tags = s.2.filterMap OpenElement.metaTag ++ [metaBottom] ∧
      s.1.propstack.tags = s.2.filterMap OpenElement.propTag ++ [propBottom] := by
  have hstack : (run (nestingStep .alone 0) (initParserData partConfig .idle docinfoInit, [])
      titledPart).toOption.map (·.1.propstack.tags.map (·.raw)) =
        some [Swish.titleMetaname, lit "part", Swish.domStr] := by
    decide +kernel
  obtain ⟨s, hrun, hraw⟩ := exists_ok_of_map hstack
  exact ⟨s, hrun, hraw, (run_ownTags ownTags_titledPart hrun).2⟩

end LibSwish3
