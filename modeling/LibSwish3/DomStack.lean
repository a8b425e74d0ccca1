import LibSwish3.AttributeOrder
import LibSwish3.Escapes
import LibSwish3.Numerals
import LibSwish3.ParseFh
import LibSwish3.PlainTags

/-!
# The stack of open elements

Every start tag pushes its element and every end tag pops one, and so does each pair that
`bake_tag` makes out of an HTML `<meta>` element or of an XML attribute, before its own element is
pushed.  While the tags are balanced the stack lists the open elements, and the context of an entry
is the path of baked names down to it: an entry is made once, and what is below it stays as it is
as long as the entry is there.

`flatten_tag_stack` computes the size of each piece of a context as an `int`.  Where that is too
small for the piece the process stops, so that a context that is returned is a whole one.

## Main definitions

* `pushTagStack` — `push_tag_stack` with the sizes of its strings.
* `ListsElements` — what stands on the stack of open elements.
* `BalancedTags`, `openNames`.
* `run_domstack`.
-/

namespace LibSwish3

open Runs Tables

/-! ## Pushing with sizes -/

/-- The loop of `flatten_tag_stack`: room for both strings and three more bytes, and `snprintf`,
which fails where the text is longer than an `int`. -/
def flattenStep (flattenJoin : XmlChar) (flat : XmlStr) (tag : Tag) : Swish XmlStr := do
  let size := toInt (xmlStrlen flat + xmlStrlen tag.baked + 3)
  xmalloc (toSize size)
  let text := tag.baked ++ flattenJoin :: flat
  if text.length < 2 ^ 31 then pure (text.take (toSize size - 1))
  else croak [lit "sprintf failed to concat ", tag.baked, lit " -> ", flat]

/-- `push_tag_stack`; the counter is an `unsigned int`. -/
def pushTagStack (stack : TagStack) (raw baked : XmlStr) (flattenJoin : XmlChar) :
    Swish TagStack := do
  let context ← run (flattenStep flattenJoin) baked stack.tags
  pure ⟨⟨raw, baked, context, stack.count⟩ :: stack.tags, toUInt (stack.count + 1)⟩

section Sizes

variable {join : XmlChar} {flat context raw baked : XmlStr} {tag : Tag} {tags : List Tag}
  {stack stack' : TagStack}

/-- A size that an `int` cannot hold is negative, and there is no memory for that. -/
theorem lt_of_toSize_toInt {n : Nat} (hn : n < 2 ^ 32) (h : toSize (toInt n) < 2 ^ 63) :
    n < 2 ^ 31 := by
  obtain ⟨hmin, hmax⟩ := isInt_toInt n
  have hmod : toInt n % ((2 ^ 32 : Nat) : Int) = (n : Int) % ((2 ^ 32 : Nat) : Int) := Int.bmod_emod
  rw [toSize] at h
  norm_num at hmod
  omega

/-- Where a piece fits into an `int` its room is enough, or there is none. -/
theorem flattenStep_ok (h : flattenStep join flat tag = .ok context) :
    context = tag.baked ++ join :: flat ∧ context.length < 2 ^ 31 := by
  obtain ⟨u, halloc, h⟩ := bind_ok_iff.mp h
  have hsize := lt_of_xmalloc halloc
  by_cases hlt : (tag.baked ++ join :: flat).length < 2 ^ 31
  · rw [if_pos hlt] at h
    have hlength := hlt
    rw [List.length_append, List.length_cons] at hlength
    have hroom : xmlStrlen flat + xmlStrlen tag.baked + 3 =
        ((flat.length + tag.baked.length + 3 : Nat) : Int) := by
      rw [xmlStrlen, xmlStrlen, toInt_of_lt (by omega), toInt_of_lt (by omega)]
      omega
    rw [hroom] at h hsize
    have hint := lt_of_toSize_toInt (by omega) hsize
    rw [toInt_of_lt hint, toSize_natCast (by omega), List.take_of_length_le] at h
    · rw [← Except.ok.inj h]
      exact ⟨rfl, hlt⟩
    · rw [List.length_append, List.length_cons]
      omega
  · rw [if_neg hlt] at h
    cases h

theorem flattenStep_failsAs :
    FailsAs (fun e => ∃ msg, e = .croak msg) (flattenStep join flat tag) := by
  refine FailsAs.bind ?_ fun _ _ => ?_
  · rw [xmalloc]
    split
    · exact failsAs_error ⟨_, rfl⟩
    · exact failsAs_ok _
  · simp only
    split
    · exact failsAs_ok _
    · exact failsAs_error ⟨_, rfl⟩

/-- A context that is returned is the whole path, and at least as long as the stack is deep. -/
theorem flattenTags_ok (h : run (flattenStep join) flat tags = .ok context) :
    context = tags.foldl (fun flat tag => tag.baked ++ join :: flat) flat ∧
      flat.length + tags.length ≤ context.length ∧ (tags ≠ [] → context.length < 2 ^ 31) := by
  induction tags generalizing flat with
  | nil =>
      cases h
      exact ⟨rfl, Nat.le_refl _, fun h => absurd rfl h⟩
  | cons tag tags ih =>
      obtain ⟨flat₁, hstep, h⟩ := run_cons_ok_iff.mp h
      obtain ⟨rfl, hlt⟩ := flattenStep_ok hstep
      obtain ⟨hcontext, hlength, hint⟩ := ih h
      rw [List.length_append, List.length_cons] at hlength
      refine ⟨hcontext, by rw [List.length_cons]; omega, fun _ => ?_⟩
      by_cases hnil : tags = []
      · subst hnil
        rw [hcontext]
        exact hlt
      · exact hint hnil

/-- A push that returns is the push of the parser: no context is cut off and no counter wraps. -/
theorem pushTagStack_ok (hcounted : stack.Counted)
    (h : pushTagStack stack raw baked join = .ok stack') : stack' = stack.push raw baked join := by
  obtain ⟨context, hrun, h⟩ := bind_ok_iff.mp h
  obtain ⟨rfl, hdepth, hint⟩ := flattenTags_ok hrun
  have hcount : (stack.count + 1 : Int) = ((stack.tags.length + 1 : Nat) : Int) := by
    rw [hcounted]
    omega
  have hlt : stack.tags.length + 1 < 2 ^ 32 := by
    by_cases hnil : stack.tags = []
    · rw [hnil]
      decide
    · have := hint hnil
      omega
  rw [← Except.ok.inj h, TagStack.push, flattenTagStack, toUInt_eq hcount hlt, ← hcount]

theorem flattenTags_failsAs :
    FailsAs (fun e => ∃ msg, e = .croak msg) (run (flattenStep join) flat tags) :=
  (endsWell_run (I := fun _ => True) (C := fun _ _ => True)
    (fun _ _ _ _ => ⟨fun _ _ => trivial, flattenStep_failsAs⟩) trivial
    (steps_of_forall (Q := fun _ => True) fun _ _ => trivial)).fails

end Sizes

/-- A push with sizes is the push of the parser, or it stops the process with a message. -/
def PushesWhole (stack : TagStack) : Prop :=
  ∀ raw baked, pushTagStack stack raw baked Swish.dot = .ok (stack.push raw baked Swish.dot) ∨
    ∃ msg, pushTagStack stack raw baked Swish.dot = .error (.croak msg)

theorem pushesWhole {stack : TagStack} (hcounted : stack.Counted) : PushesWhole stack := by
  intro raw baked
  cases hpush : pushTagStack stack raw baked Swish.dot with
  | ok stack' => exact .inl (congrArg Except.ok (pushTagStack_ok hcounted hpush))
  | error e =>
      have hfails : FailsAs (fun e => ∃ msg, e = .croak msg)
          (pushTagStack stack raw baked Swish.dot) :=
        FailsAs.bind flattenTags_failsAs fun _ _ => failsAs_ok _
      obtain ⟨msg, rfl⟩ := hfails e hpush
      exact .inr ⟨msg, rfl⟩

/-! ## What the stack lists -/

/-- The names from the outermost one on, with dots between them. -/
def dotted (names : List XmlStr) : XmlStr := [Swish.dot].intercalate names

/-- The stack has an entry for each open element, the innermost first.  An entry knows how many
are below it, and its context is the path of baked names down to it. -/
structure ListsElements (stack : TagStack) (elements : List XmlStr) : Prop where
  raw : stack.tags.map Tag.raw = elements
  count : stack.count = stack.tags.length
  n : ∀ inner tag outer, stack.tags = inner ++ tag :: outer → tag.n = (outer.length : Int)
  context : ∀ inner tag outer, stack.tags = inner ++ tag :: outer →
    tag.context = dotted ((tag :: outer).map Tag.baked).reverse

section Lists

variable {stack : TagStack} {elements : List XmlStr} {raw baked name : XmlStr}

theorem dotted_append_join (names : List XmlStr) (a b : XmlStr) :
    dotted (names ++ [a ++ Swish.dot :: b]) = dotted (names ++ [a, b]) := by
  simp only [dotted]
  induction names with
  | nil => simp
  | cons c names ih =>
      rw [List.cons_append, List.cons_append, List.intercalate_cons_of_ne_nil (by simp), ih,
        List.intercalate_cons_of_ne_nil (by simp)]

/-- Prepending one name after the other makes the path. -/
theorem dottedPath_eq_dotted (name : XmlStr) (elements : List XmlStr) :
    dottedPath name elements = dotted (name :: elements).reverse := by
  induction elements generalizing name with
  | nil => simp [dottedPath, dotted]
  | cons tag elements ih =>
      have hpath : dottedPath name (tag :: elements) =
          dottedPath (tag ++ Swish.dot :: name) elements := rfl
      rw [hpath, ih, List.reverse_cons, dotted_append_join]
      simp

theorem listsElements_empty : ListsElements .empty [] := by
  refine ⟨rfl, rfl, ?_, ?_⟩
  · intro inner tag outer h
    exact absurd h.symm (by simp [TagStack.empty])
  · intro inner tag outer h
    exact absurd h.symm (by simp [TagStack.empty])

theorem ListsElements.push (h : ListsElements stack elements) :
    ListsElements (stack.push raw baked Swish.dot) (raw :: elements) := by
  refine ⟨?_, TagStack.Counted.push h.count, ?_, ?_⟩
  · rw [TagStack.push_tags, List.map_cons, h.raw]
  · intro inner tag outer hsplit
    cases inner with
    | nil =>
        obtain ⟨rfl, rfl⟩ := List.cons.inj hsplit
        exact h.count
    | cons top inner => exact h.n inner tag outer (List.cons.inj hsplit).2
  · intro inner tag outer hsplit
    cases inner with
    | nil =>
        obtain ⟨rfl, rfl⟩ := List.cons.inj hsplit
        rw [flattenTagStack_eq, dottedPath_eq_dotted]
        rfl
    | cons top inner => exact h.context inner tag outer (List.cons.inj hsplit).2

/-- With an open element there is an entry to pop, and the others stay. -/
theorem ListsElements.pop (h : ListsElements stack (name :: elements)) :
    ∃ top below, stack.tags = top :: below ∧ top.raw = name ∧
      stack.pop = (some top, ⟨below, stack.count - 1⟩) ∧
      ListsElements ⟨below, stack.count - 1⟩ elements := by
  have hraw := h.raw
  cases htags : stack.tags with
  | nil =>
      rw [htags] at hraw
      cases hraw
  | cons top below =>
      rw [htags] at hraw
      obtain ⟨htop, hbelow⟩ := List.cons.inj hraw
      have hcount := h.count
      rw [htags, List.length_cons] at hcount
      refine ⟨top, below, rfl, htop, TagStack.pop_cons h.count htags, hbelow, ?_, ?_, ?_⟩
      · simp only
        omega
      · intro inner tag outer hsplit
        exact h.n (top :: inner) tag outer (htags.trans (congrArg (top :: ·) hsplit))
      · intro inner tag outer hsplit
        exact h.context (top :: inner) tag outer (htags.trans (congrArg (top :: ·) hsplit))

theorem ListsElements.eq_empty (h : ListsElements stack []) : stack = .empty := by
  have htags : stack.tags = [] := List.map_eq_nil_iff.mp h.raw
  have hcount := h.count
  rw [htags] at hcount
  obtain ⟨tags, count⟩ := stack
  obtain rfl : tags = [] := htags
  obtain rfl : count = 0 := hcount
  rfl

end Lists

/-! ## Tags -/

/-- The open elements after an event, the innermost first. -/
def elementsAfter (elements : List XmlStr) : SaxEvent → List XmlStr
  | .startElement name _ | .startElementNs name _ _ _ => name :: elements
  | .endElement _ | .endElementNs _ _ => elements.tail
  | _ => elements

/-- An end tag is that of the innermost element. -/
def ClosesInnermost (elements : List XmlStr) : SaxEvent → Prop
  | .endElement name | .endElementNs name _ => ∃ outer, elements = name :: outer
  | _ => True

/-- The tags of the SAX1 and of the SAX2 callbacks match, seen from inside the open elements. -/
def BalancedTags : (elements : List XmlStr) → List SaxEvent → Prop
  | elements, [] => elements = []
  | elements, e :: es => ClosesInnermost elements e ∧ BalancedTags (elementsAfter elements e) es

/-- The elements that are open behind the events. -/
def openNames (events : List SaxEvent) : List XmlStr := events.foldl elementsAfter []

/-- A pair that `bake_tag` opens and closes: its element is inside the open ones, and behind it
they are as before. -/
structure NestedListed (env : TagEnv) (elements : List XmlStr) (pd : ParserData) (name : XmlStr)
    (xmlnsPrefix : Option XmlStr) : Prop where
  before : ListsElements pd.domstack elements
  inside : ∀ pd₁, openTagPlain env { pd with bumpWord := true } name xmlnsPrefix = .ok pd₁ →
    ListsElements pd₁.domstack (name :: elements)
  behind : ∀ content pd', nestedTag env pd name content xmlnsPrefix = .ok pd' →
    pd'.domstack = pd.domstack

/-- The start of an element: every pair in it meets the stack of the elements around it. -/
def StartListed (env : TagEnv) (elements : List XmlStr) (pd : ParserData) (tag : XmlStr)
    (atts : Option Atts) (xmlnsPrefix : Option XmlStr) : Prop :=
  BakeMeets env (NestedListed env elements) (fun _ _ => True) { pd with tag := .null } tag atts
    xmlnsPrefix

/-- The end of an element: the entry that is popped is there, and it is its own. -/
def EndListed (pd : ParserData) (name : XmlStr) : Prop :=
  ∃ top below, pd.domstack.tags = top :: below ∧ top.raw = name

/-- What a callback does with the stack on its way. -/
def EventListed (env : SaxEnv) (fuel : Nat) (elements : List XmlStr) (pd : ParserData) :
    SaxEvent → Prop
  | .startElement name atts => StartListed env.toTagEnv elements pd name atts none
  | .startElementNs localname xmlnsPrefix uri attributes =>
    ∀ pd₁, startXinclude env (xincludeDeep env fuel) pd localname uri (sax2Atts attributes) =
        .ok pd₁ →
      StartListed env.toTagEnv elements pd₁ localname (sax2Atts attributes) xmlnsPrefix
  | .endElement name | .endElementNs name _ => EndListed pd name
  | _ => True

section Tags

variable {env : TagEnv} {pd pd' : ParserData} {elements : List XmlStr} {name tag : XmlStr}
  {atts : Option Atts} {xmlnsPrefix : Option XmlStr}

theorem openTagPlain_domstack (h : openTagPlain env pd name xmlnsPrefix = .ok pd') :
    ∃ baked, pd'.domstack = pd.domstack.push name baked Swish.dot := by
  obtain ⟨pd₁, baked, hbake, hpush⟩ := openTagPlain_ok h
  obtain ⟨n, hcalm⟩ := hbake.calm
  obtain ⟨-, -, -, hpushed⟩ := pushTags_ok hpush
  exact ⟨baked, hpushed.domstack.trans
    (congrArg (TagStack.push · name baked Swish.dot) hcalm.domstack)⟩

theorem nestedListed (h : ListsElements pd.domstack elements) :
    NestedListed env elements pd name xmlnsPrefix := by
  refine ⟨h, ?_, ?_⟩
  · intro pd₁ hopen
    obtain ⟨baked, hdom⟩ := openTagPlain_domstack hopen
    rw [hdom]
    exact h.push
  · intro content pd' hok
    exact nestedTag_domstack h.count hok

theorem bakeAttribute_domstack {s s' : ParserData × XmlStr} {att : XmlStr × Option XmlStr}
    (hcounted : s.1.domstack.Counted) (h : bakeAttribute env xmlnsPrefix s att = .ok s') :
    s'.1.domstack = s.1.domstack := by
  obtain ⟨⟨swishtag, metanameFromAttr, attrValLower⟩, -, h⟩ := bind_ok_iff.mp h
  obtain ⟨pd₁, hundef, h⟩ := bind_ok_iff.mp h
  obtain ⟨pd₂, htag, h⟩ := bind_ok_iff.mp h
  cases h
  have hsame := (undefXmlAttr_calm hundef).domstack
  unfold attributeTag at htag
  split at htag
  · exact (nestedTag_domstack (hsame ▸ hcounted) htag).trans hsame
  · cases htag
    exact hsame

/-- Every pair in a start tag meets the stack that the start tag met. -/
theorem startListed (h : ListsElements pd.domstack elements) :
    StartListed env elements pd tag atts xmlnsPrefix := by
  intro swishtag _
  refine ⟨?_, fun _ => ⟨?_, fun _ _ => trivial⟩⟩
  · intro _ metaname metacontent _ pd₁ hundef
    obtain ⟨n, hcalm⟩ := undefHtmlMeta_calm hundef
    have hbump := htmlBump_calm env { pd with tag := .null } swishtag
    have hsame : pd₁.domstack = pd.domstack := hcalm.domstack.trans hbump.domstack
    exact nestedListed (hsame ▸ h)
  · refine steps_of_invariant (I := fun s => s.1.domstack = pd.domstack) ?_ rfl ?_
    · intro s att s' hsame hstep
      exact (bakeAttribute_domstack (hsame ▸ h.count) hstep).trans hsame
    · intro s att hsame _ _ _ pd₁ _ hundef _
      exact nestedListed ((undefXmlAttr_calm hundef).domstack.trans hsame ▸ h)

theorem domstack_bakeKept {stack : TagStack} (hcounted : stack.Counted) :
    BakeKept env (fun _ _ _ => True) (fun _ _ => True) fun pd => pd.domstack = stack where
  calm _ _ h hcalm := hcalm.domstack.trans h
  undefXmlTag _ _ _ h _ _ hok := by
    obtain ⟨n, hcalm⟩ := undefXmlTag_calm hok
    exact hcalm.domstack.trans h
  undefHtmlMeta _ _ _ h hok := by
    obtain ⟨n, hcalm⟩ := undefHtmlMeta_calm hok
    exact ⟨hcalm.domstack.trans h, hcalm.domstack.trans h⟩
  nested _ _ _ _ _ h _ hok := (nestedTag_domstack (h ▸ hcounted) hok).trans h

/-- A start tag pushes its element on the stack that it met. -/
theorem openTag_domstack (hcounted : pd.domstack.Counted)
    (h : openTag env pd tag atts xmlnsPrefix = .ok pd') :
    ∃ baked, pd'.domstack = pd.domstack.push tag baked Swish.dot := by
  obtain ⟨baked, pd₁, hbake, hpush⟩ := openTag_ok h
  have hmeets : BakeMeets env (fun _ _ _ => True) (fun _ _ => True) { pd with tag := .null } tag
      atts xmlnsPrefix := by
    intro _ _
    refine ⟨fun _ _ _ _ _ _ => trivial, fun _ => ⟨?_, fun _ _ => trivial⟩⟩
    exact fun _ _ _ _ _ _ _ _ _ _ _ _ _ => trivial
  have hinit : ({ pd with tag := .null } : ParserData).domstack = pd.domstack := rfl
  have hsame : pd₁.domstack = pd.domstack :=
    bakeTag_kept (domstack_bakeKept hcounted) hinit hmeets hbake
  obtain ⟨-, -, -, hpushed⟩ := pushTags_ok hpush
  exact ⟨baked.getD tag, hpushed.domstack.trans
    (congrArg (TagStack.push · tag (baked.getD tag) Swish.dot) hsame)⟩

/-- An end tag pops the entry of the innermost element. -/
theorem closeTag_lists (h : ListsElements pd.domstack (name :: elements))
    (hok : closeTag env pd name xmlnsPrefix = .ok pd') : ListsElements pd'.domstack elements := by
  obtain ⟨pd₁, baked, hbake, hpop⟩ := closeTag_ok hok
  obtain ⟨n, hcalm⟩ := hbake.calm
  obtain ⟨_, _, _, -, -, hpopped, -, -⟩ := popTags_ok hpop
  have hsame : pd₁.domstack = pd.domstack := hcalm.domstack
  obtain ⟨top, below, -, -, htop, hbelow⟩ := h.pop
  rw [hsame, htop] at hpopped
  rw [← (Prod.mk.inj hpopped).2]
  exact hbelow

end Tags

/-! ## Runs -/

section Runs

variable {env : SaxEnv} {fuel : Nat} {pd pd' : ParserData} {elements : List XmlStr}
  {e : SaxEvent} {events rest : List SaxEvent}

/-- One event. -/
theorem saxStep_lists (h : ListsElements pd.domstack elements) (he : ClosesInnermost elements e)
    (hok : saxStep env fuel pd e = .ok pd') :
    ListsElements pd'.domstack (elementsAfter elements e) := by
  cases e with
  | startDocument => cases hok; exact h
  | endDocument => exact (flushBuffer_calm hok).domstack ▸ h
  | startElement name atts =>
      obtain ⟨baked, hdom⟩ := openTag_domstack h.count hok
      rw [hdom]
      exact h.push
  | endElement name =>
      obtain ⟨outer, rfl⟩ := he
      exact closeTag_lists h hok
  | startElementNs localname xmlnsPrefix uri attributes =>
      obtain ⟨pd₁, hinclude, hok⟩ := bind_ok_iff.mp hok
      have hcalm : Calm pd pd₁ :=
        startXinclude_kept (P := fun pd₁ => Calm pd pd₁)
          (fun _ _ _ _ h hinclude => h.trans (xincludeDeep_calm hinclude)) (.refl pd) hinclude
      have h₁ : ListsElements pd₁.domstack elements := hcalm.domstack ▸ h
      obtain ⟨baked, hdom⟩ := openTag_domstack h₁.count hok
      rw [hdom]
      exact h₁.push
  | endElementNs localname xmlnsPrefix =>
      obtain ⟨outer, rfl⟩ := he
      exact closeTag_lists h hok
  | characters ch =>
      cases hok
      exact (bufferCharacters_calm pd ch).domstack ▸ h
  | comment cmt =>
      cases hok
      obtain ⟨n, hcalm⟩ := mycomments_calm pd cmt
      exact hcalm.domstack ▸ h

theorem eventListed (h : ListsElements pd.domstack elements) (he : ClosesInnermost elements e) :
    EventListed env fuel elements pd e := by
  cases e with
  | startElement name atts => exact startListed h
  | startElementNs localname xmlnsPrefix uri attributes =>
      intro pd₁ hinclude
      have hcalm : Calm pd pd₁ :=
        startXinclude_kept (P := fun pd₁ => Calm pd pd₁)
          (fun _ _ _ _ h hinclude => h.trans (xincludeDeep_calm hinclude)) (.refl pd) hinclude
      exact startListed (hcalm.domstack ▸ h)
  | endElement name =>
      obtain ⟨outer, rfl⟩ := he
      obtain ⟨top, below, htags, hraw, -⟩ := h.pop
      exact ⟨top, below, htags, hraw⟩
  | endElementNs name xmlnsPrefix =>
      obtain ⟨outer, rfl⟩ := he
      obtain ⟨top, below, htags, hraw, -⟩ := h.pop
      exact ⟨top, below, htags, hraw⟩
  | startDocument | endDocument | characters ch | comment cmt => trivial

/-- A run over a part of balanced tags. -/
theorem run_lists (h : ListsElements pd.domstack elements)
    (hbalanced : BalancedTags elements (events ++ rest))
    (hrun : run (saxStep env fuel) pd events = .ok pd') :
    ListsElements pd'.domstack (events.foldl elementsAfter elements) ∧
      BalancedTags (events.foldl elementsAfter elements) rest := by
  induction events generalizing pd elements with
  | nil =>
      cases hrun
      exact ⟨h, hbalanced⟩
  | cons e events ih =>
      obtain ⟨he, hbalanced⟩ := hbalanced
      obtain ⟨pd₁, hstep, hrun⟩ := run_cons_ok_iff.mp hrun
      exact ih (saxStep_lists h he hstep) hbalanced hrun

/-- **Over every part of balanced tags, from its start, the stack lists the open elements with
their depths and contexts, and it is empty where all are closed; the pairs inside a start tag leave
it as it was, no end tag finds it empty, and every push is a whole one.** -/
theorem run_domstack (hempty : pd.domstack = .empty) (hbalanced : BalancedTags [] (events ++ rest))
    (hrun : run (saxStep env fuel) pd events = .ok pd') :
    ListsElements pd'.domstack (openNames events) ∧ PushesWhole pd'.domstack ∧
      (openNames events = [] → pd'.domstack = .empty) ∧
      ∀ pre e post pd₁, events = pre ++ e :: post → run (saxStep env fuel) pd pre = .ok pd₁ →
        EventListed env fuel (openNames pre) pd₁ e := by
  have hinit : ListsElements pd.domstack [] := hempty ▸ listsElements_empty
  have hlists : ListsElements pd'.domstack (openNames events) := (run_lists hinit hbalanced hrun).1
  refine ⟨hlists, pushesWhole hlists.count, ?_, ?_⟩
  · intro hclosed
    rw [hclosed] at hlists
    exact hlists.eq_empty
  · rintro pre e post pd₁ rfl hpre
    rw [List.append_assoc] at hbalanced
    obtain ⟨hlists₁, he, -⟩ := run_lists hinit hbalanced hpre
    exact eventListed hlists₁ he

end Runs

/-- `<doc><foo class="bar">one<b>two</b><b>three`, with three elements open -/
def openFoo : List SaxEvent :=
  [.startElementNs (lit "doc") none none [],
    .startElementNs (lit "foo") none none [(lit "class", lit "bar")], .characters (lit "one"),
    .startElementNs (lit "b") none none [], .characters (lit "two"),
    .endElementNs (lit "b") none, .startElementNs (lit "b") none none [],
    .characters (lit "three")]

/-- `</b></foo></doc>` -/
def closeFoo : List SaxEvent :=
  [.endElementNs (lit "b") none, .endElementNs (lit "foo") none, .endElementNs (lit "doc") none]

/-- Three elements are open, and the pair of the class attribute is closed. -/
theorem run_domstack_foo : ∃ pd,
    run (saxStep .alone 0) classDocument openFoo = .ok pd ∧
      pd.domstack.tags.map (·.context) = [lit "doc.foo.bar.b", lit "doc.foo.bar", lit "doc"] ∧
      ListsElements pd.domstack [lit "b", lit "foo", lit "doc"] := by
  have hcontexts : (run (saxStep .alone 0) classDocument openFoo).toOption.map
      (·.domstack.tags.map (·.context)) =
        some [lit "doc.foo.bar.b", lit "doc.foo.bar", lit "doc"] := by
    decide +kernel
  obtain ⟨pd, hrun, hcontexts⟩ := exists_ok_of_map hcontexts
  have hbalanced : BalancedTags [] (openFoo ++ closeFoo) :=
    ⟨trivial, trivial, trivial, trivial, trivial, ⟨_, rfl⟩, trivial, trivial, ⟨_, rfl⟩, ⟨_, rfl⟩,
      ⟨_, rfl⟩, rfl⟩
  exact ⟨pd, hrun, hcontexts, (run_domstack rfl hbalanced hrun).1⟩

end LibSwish3
