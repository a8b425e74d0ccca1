import LibSwish3.HeaderRules

/-!
# Sections of a header file

A config document is a forest of elements under the root.  A section element opens a section
for the entries inside it; everything beside it belongs to `misc` or `stringlists`.
`process_node` sees the start and end tags only: it opens a section at a start tag and closes
it at an end tag, and an element that is written as an empty tag has no end tag.

## Main definitions

* `Forest` — elements, with or without content, and the nodes between them.
* `Forest.leftOpen` — the section an empty tag leaves open.
* `ReadsOutside` — an element is read as one outside all sections.
-/

namespace LibSwish3

open Runs Tables

/-! ## Documents -/

/-- The tag of an element. -/
structure ElementTag where
  /-- The qualified name. -/
  name : XmlStr
  localName : XmlStr
  attributes : List Attr

def ElementTag.start (tag : ElementTag) : Node :=
  ⟨.element, tag.name, some tag.localName, none, tag.attributes⟩

def ElementTag.stop (tag : ElementTag) : Node :=
  ⟨.endElement, tag.name, some tag.localName, none, []⟩

/-- A node that is no tag: a text, a comment, a processing instruction. -/
structure Leaf where
  node : Node
  not_start : node.type ≠ .element
  not_stop : node.type ≠ .endElement
  text_name : node.type = .text → node.localName = some (lit "#text")

/-- A piece of a document between two tags of one element. -/
inductive Forest
  | nil
  | text (leaf : Leaf) (rest : Forest)
  /-- An element written as an empty tag. -/
  | empty (tag : ElementTag) (rest : Forest)
  | pair (tag : ElementTag) (inner rest : Forest)

/-- The nodes `xmlTextReader` reports. -/
def Forest.nodes : Forest → List Node
  | .nil => []
  | .text leaf rest => leaf.node :: rest.nodes
  | .empty tag rest => tag.start :: rest.nodes
  | .pair tag inner rest => tag.start :: inner.nodes ++ tag.stop :: rest.nodes

/-- The section that is open behind a piece of a document, when `part` was open before it.
An empty section tag leaves its section open, until the next section begins or ends. -/
def Forest.leftOpen (part : Option Section) : Forest → Option Section
  | .nil => part
  | .text leaf rest =>
    if leaf.node.type = .comment then rest.leftOpen part
    else rest.leftOpen ((sectionOf leaf.node.localNameOr).or part)
  | .empty tag rest => rest.leftOpen ((sectionOf tag.localName).or part)
  | .pair tag inner rest =>
    if (sectionOf tag.localName).isSome then rest.leftOpen none
    else rest.leftOpen (inner.leftOpen part)

/-! ## Reading outside the sections -/

/-- What the start of an element outside all sections waits for. -/
def outsideTarget (name : XmlStr) : Awaiting :=
  if name = Swish.classAttributes then .stringlist name else .value .misc name

/-- What an element outside all sections does with its text.  It becomes a value in `misc`, where a
directive sets its flag, or its words go behind those that `stringlists` has for
`XMLClassAttributes`. -/
def readOutside (env : HeaderEnv) (name value : XmlStr) (h : Headmaker) : Swish Headmaker :=
  if name = Swish.classAttributes then do
    let words ← stringlistBuild (← strTolower env.loc value)
    let strlist := (h.config.stringlists.lookup name).getD [] ++ words
    pure { h with
      config := { h.config with stringlists := h.config.stringlists.insert name strlist } }
  else do
    let misc := hashReplace h.config.misc name value
    pure { h with config := ← handleSpecialMiscFlags { h.config with misc } }

/-- The element is read into `misc`, or into `stringlists` for `XMLClassAttributes`: its start is
taken for that, and its text is stored there. -/
structure ReadsOutside (env : HeaderEnv) (mergeFile : XmlStr → Config → Swish Config)
    (h : Headmaker) (tag : ElementTag) : Prop where
  start : readNode env mergeFile h tag.start =
    .ok { h with awaiting := outsideTarget tag.localName }
  stores : ∀ text : Node, text.type = .text →
    run (readNode env mergeFile) h [tag.start, text] =
      readOutside env tag.localName text.text h

/-- `process_node` is about to see the node behind `nodes`, in the state `h`. -/
structure Reaches (env : HeaderEnv) (mergeFile : XmlStr → Config → Swish Config)
    (confFile : XmlStr) (nodes : List Node) (h : Headmaker) : Prop where
  run_eq : run (readNode env mergeFile) (initHeadmaker env confFile) nodes = .ok h
  ready : h.awaiting = .node

/-! ## What reading an entry leaves alone -/

/-- The reader has kept its place. -/
structure SamePlace (h h' : Headmaker) : Prop where
  inSection : h'.inSection = h.inSection
  awaiting : h'.awaiting = h.awaiting
  isValid : h'.isValid = h.isValid

theorem SamePlace.refl (h : Headmaker) : SamePlace h h := ⟨rfl, rfl, rfl⟩

theorem SamePlace.trans {h h' h'' : Headmaker} (hab : SamePlace h h') (hbc : SamePlace h' h'') :
    SamePlace h h'' :=
  ⟨hbc.inSection.trans hab.inSection, hbc.awaiting.trans hab.awaiting,
    hbc.isValid.trans hab.isValid⟩

section Entries

variable {env : HeaderEnv} {h h' h₀ : Headmaker}

private theorem readMetanameAlias_place {m : MetaName} {word : XmlStr} (hplace : SamePlace h₀ h)
    (hok : readMetanameAlias env m h word = .ok h') : SamePlace h₀ h' := by
  rw [readMetanameAlias] at hok
  split at hok
  · cases hok
  obtain ⟨newname, -, hok⟩ := bind_ok_iff.mp hok
  split at hok
  all_goals
    cases hok
    exact hplace.trans ⟨rfl, rfl, rfl⟩

private theorem readPropertyAlias_place {prop : Property} {word : XmlStr}
    (hplace : SamePlace h₀ h) (hok : readPropertyAlias env prop h word = .ok h') :
    SamePlace h₀ h' := by
  rw [readPropertyAlias] at hok
  split at hok
  · cases hok
  obtain ⟨newname, -, hok⟩ := bind_ok_iff.mp hok
  obtain ⟨properties, -, hok⟩ := bind_ok_iff.mp hok
  cases hok
  exact hplace.trans ⟨rfl, rfl, rfl⟩

private theorem readMetanameAttr_place {s s' : Headmaker × MetaName} {attr : Attr}
    (hplace : SamePlace h₀ s.1) (hok : readMetanameAttr env s attr = .ok s') :
    SamePlace h₀ s'.1 := by
  obtain ⟨v, rfl⟩ | ⟨v, metaIds, rfl⟩ | ⟨name, -, rfl⟩ := readMetanameAttr_cases hok
  all_goals exact hplace.trans ⟨rfl, rfl, rfl⟩

private theorem readPropertyAttr_place {s s' : Headmaker × Property} {attr : Attr}
    (hplace : SamePlace h₀ s.1) (hok : readPropertyAttr env s attr = .ok s') :
    SamePlace h₀ s'.1 := by
  obtain ⟨ic, vb, so, ps, rfl⟩ | ⟨v, rfl⟩ | ⟨v, rfl⟩ | ⟨v, propIds, rfl⟩ | ⟨v, rfl⟩ |
    ⟨name, -, rfl⟩ := readPropertyAttr_cases hok
  all_goals exact hplace.trans ⟨rfl, rfl, rfl⟩

private theorem assignMetaId_place (h : Headmaker) (m : MetaName) :
    SamePlace h (h.assignMetaId m).1 := by
  obtain ⟨-, heq⟩ | ⟨-, metaId, maxMetaId, v, -, heq⟩ := assignMetaId_cases h m
  · rw [heq]
    exact SamePlace.refl h
  · rw [heq]
    exact ⟨rfl, rfl, rfl⟩

private theorem assignPropId_place (h : Headmaker) (prop : Property) :
    SamePlace h (h.assignPropId prop).1 := by
  obtain ⟨-, heq⟩ | ⟨-, propId, maxPropId, v, -, heq⟩ := assignPropId_cases h prop
  · rw [heq]
    exact SamePlace.refl h
  · rw [heq]
    exact ⟨rfl, rfl, rfl⟩

private theorem addMetaname_place (h : Headmaker) (m : MetaName) :
    SamePlace h (h.addMetaname m) := by
  rw [Headmaker.addMetaname]
  split <;> exact ⟨rfl, rfl, rfl⟩

private theorem addProperty_place {prop : Property} (hok : h.addProperty prop = .ok h') :
    SamePlace h h' := by
  unfold Headmaker.addProperty at hok
  split at hok
  · cases hok
  · cases hok
    exact ⟨rfl, rfl, rfl⟩

private theorem readMetaname_place {node : Node} (hok : readMetaname env node h = .ok h') :
    SamePlace h h' := by
  unfold readMetaname at hok
  obtain ⟨name, -, hok⟩ := bind_ok_iff.mp hok
  split at hok
  · split at hok
    · cases hok
    · obtain ⟨target, -, hok⟩ := bind_ok_iff.mp hok
      exact invariant (fun _ _ _ hI hs => readMetanameAlias_place hI hs) (SamePlace.refl h)
        (readMetanameAliases_ok hok)
  · obtain ⟨⟨h₁, m⟩, hrun, hok⟩ := bind_ok_iff.mp hok
    have hattrs : SamePlace h h₁ :=
      invariant (I := fun s : Headmaker × MetaName => SamePlace h s.1)
        (fun _ _ _ hI hs => readMetanameAttr_place hI hs) (SamePlace.refl h) hrun
    have hassigned := hattrs.trans (assignMetaId_place h₁ m)
    cases hassign : h₁.assignMetaId m with
    | mk h₂ m₂ =>
        simp only [hassign] at hok hassigned
        cases hok
        exact (hassigned.trans (addMetaname_place h₂ m₂)).trans ⟨rfl, rfl, rfl⟩

private theorem readProperty_place {node : Node} (hok : readProperty env node h = .ok h') :
    SamePlace h h' := by
  unfold readProperty at hok
  obtain ⟨name, -, hok⟩ := bind_ok_iff.mp hok
  split at hok
  · split at hok
    · cases hok
    · obtain ⟨target, -, hok⟩ := bind_ok_iff.mp hok
      exact invariant (fun _ _ _ hI hs => readPropertyAlias_place hI hs) (SamePlace.refl h)
        (readPropertyAliases_ok hok)
  · obtain ⟨⟨h₁, prop⟩, hrun, hok⟩ := bind_ok_iff.mp hok
    have hattrs : SamePlace h h₁ :=
      invariant (I := fun s : Headmaker × Property => SamePlace h s.1)
        (fun _ _ _ hI hs => readPropertyAttr_place hI hs) (SamePlace.refl h) hrun
    have hassigned := hattrs.trans (assignPropId_place h₁ prop)
    cases hassign : h₁.assignPropId prop with
    | mk h₂ prop₂ =>
        simp only [hassign] at hok hassigned
        obtain ⟨h₃, hadd, hok⟩ := bind_ok_iff.mp hok
        cases hok
        exact (hassigned.trans (addProperty_place hadd)).trans ⟨rfl, rfl, rfl⟩

/-- An entry of an open section is read at once, or waits for a value of the section. -/
theorem processEntry_inSection {node : Node} (hok : processEntry env node h = .ok h') :
    h'.inSection = h.inSection ∧ h'.isValid = h.isValid := by
  unfold processEntry at hok
  split at hok
  · have hplace := readProperty_place hok
    exact ⟨hplace.inSection, hplace.isValid⟩
  · have hplace := readMetaname_place hok
    exact ⟨hplace.inSection, hplace.isValid⟩
  · cases hok
    exact ⟨rfl, rfl⟩
  · cases hok
    exact ⟨rfl, rfl⟩
  · cases hok
    exact ⟨rfl, rfl⟩
  · cases hok
    exact ⟨rfl, rfl⟩
  · simp only at hok
    split_ifs at hok
    all_goals
      cases hok
      exact ⟨rfl, rfl⟩

end Entries

/-! ## The open section along a document -/

/-- What a node does to the open section, by its type and its local name alone. -/
def openNode (part : Option Section) (node : Node) : Option Section :=
  if node.type = .comment then part
  else if node.type = .endElement then
    if (sectionOf node.localNameOr).isSome then none else part
  else (sectionOf node.localNameOr).or part

section Nodes

variable {env : HeaderEnv} {mergeFile : XmlStr → Config → Swish Config} {h h' : Headmaker}
  {node : Node} {part : Option Section} {isValid : Bool}

theorem sectionOf_headerRoot : sectionOf Swish.headerRoot = none := by decide

theorem sectionOf_includeFile : sectionOf Swish.includeFile = none := by decide

theorem sectionOf_text : sectionOf (lit "#text") = none := by decide

/-- The open section follows what `process_node` takes the node for. -/
theorem openNode_of_nodeKind (h : nodeKind isValid node ≠ .invalid) :
    openNode part node = match nodeKind isValid node with
      | .sectionStart section' => some section'
      | .sectionEnd => none
      | _ => part := by
  unfold nodeKind openNode at *
  by_cases hcomment : node.type = .comment
  · simp only [hcomment, if_true]
  simp only [hcomment, if_false] at h ⊢
  by_cases hroot : node.localNameOr = Swish.headerRoot
  · simp only [hroot, if_true, sectionOf_headerRoot, Option.isSome_none, Bool.false_eq_true,
      if_false, Option.none_or, ite_self]
  simp only [hroot, if_false] at h ⊢
  cases isValid with
  | false => exact absurd rfl h
  | true => ?_
  simp only [Bool.not_true, Bool.false_eq_true, if_false] at h ⊢
  by_cases hblank : strAllWs node.text ∧ node.localNameOr = lit "#text"
  · simp only [hblank, and_self, if_true, sectionOf_text, Option.isSome_none,
      Bool.false_eq_true, if_false, Option.none_or, ite_self]
  simp only [hblank, if_false]
  by_cases hend : node.type = .endElement
  · simp only [hend, if_true]
    by_cases hsection : (sectionOf node.localNameOr).isSome
    · simp only [hsection, if_true]
    · simp only [hsection, if_false, Bool.false_eq_true]
  simp only [hend, if_false]
  by_cases hinclude : node.localNameOr = Swish.includeFile
  · simp only [hinclude, if_true, sectionOf_includeFile, Option.none_or]
  simp only [hinclude, if_false]
  cases sectionOf node.localNameOr with
  | none => rfl
  | some section' => rfl

theorem openNode_text (htype : node.type = .text) (hname : node.localName = some (lit "#text")) :
    openNode part node = part := by
  rw [openNode, htype, Node.localNameOr, hname, Option.getD_some, sectionOf_text]
  rfl

theorem processNode_inSection (hok : processNode env node h = .ok h') :
    h'.inSection = openNode h.inSection node ∧ (h.isValid → h'.isValid) := by
  have hvalid : nodeKind h.isValid node ≠ .invalid := by
    intro hkind
    simp only [processNode, hkind] at hok
    cases hok
  rw [openNode_of_nodeKind hvalid]
  unfold processNode at hok
  cases hkind : nodeKind h.isValid node with
  | skip => rw [hkind] at hok; cases hok; exact ⟨rfl, id⟩
  | root => rw [hkind] at hok; cases hok; exact ⟨rfl, fun _ => rfl⟩
  | invalid => exact absurd hkind hvalid
  | sectionEnd => rw [hkind] at hok; cases hok; exact ⟨rfl, id⟩
  | includeFile => rw [hkind] at hok; cases hok; exact ⟨rfl, id⟩
  | sectionStart section' => rw [hkind] at hok; cases hok; exact ⟨rfl, id⟩
  | entry =>
      rw [hkind] at hok
      obtain ⟨hsection, hsame⟩ := processEntry_inSection hok
      exact ⟨hsection, fun hv => hsame.trans hv⟩

/-- A node a call has waited for is a text, and changes no section. -/
theorem readNode_inSection (hname : node.type = .text → node.localName = some (lit "#text"))
    (hok : readNode env mergeFile h node = .ok h') :
    h'.inSection = openNode h.inSection node ∧ (h.isValid → h'.isValid) := by
  unfold readNode at hok
  split at hok
  · exact processNode_inSection hok
  · split at hok
    · rename_i table name _ htype
      rw [openNode_text htype (hname htype)]
      unfold readKeyValuePair at hok
      cases table with
      | misc =>
          obtain ⟨config, -, hok⟩ := bind_ok_iff.mp hok
          cases hok
          exact ⟨rfl, id⟩
      | index => cases hok; exact ⟨rfl, id⟩
      | mimes => cases hok; exact ⟨rfl, id⟩
    · cases hok
  · split at hok
    · rename_i htype
      rw [openNode_text htype (hname htype)]
      obtain ⟨lower, -, rfl⟩ := readKeyValuesPair_ok hok
      exact ⟨rfl, id⟩
    · cases hok
  · split at hok
    · rename_i htype
      rw [openNode_text htype (hname htype)]
      obtain ⟨strlist, rfl⟩ := readKeyValueStringlist_ok hok
      exact ⟨rfl, id⟩
    · cases hok
  · split at hok
    · rename_i htype
      rw [openNode_text htype (hname htype)]
      obtain ⟨confFile, -, hok⟩ := bind_ok_iff.mp hok
      obtain ⟨config, -, hok⟩ := bind_ok_iff.mp hok
      cases hok
      exact ⟨rfl, id⟩
    · cases hok

/-- The open section at the end of a run is read off the nodes. -/
theorem run_inSection {nodes : List Node}
    (hnames : ∀ node ∈ nodes, node.type = .text → node.localName = some (lit "#text"))
    (hrun : run (readNode env mergeFile) h nodes = .ok h') :
    h'.inSection = nodes.foldl openNode h.inSection ∧ (h.isValid → h'.isValid) := by
  induction nodes generalizing h with
  | nil =>
      cases hrun
      exact ⟨rfl, id⟩
  | cons node nodes ih =>
      obtain ⟨h₁, hstep, hrest⟩ := run_cons_ok_iff.mp hrun
      obtain ⟨hsection, hvalid⟩ := readNode_inSection (hnames node (by simp)) hstep
      obtain ⟨hsection', hvalid'⟩ := ih (fun n hn => hnames n (by simp [hn])) hrest
      rw [List.foldl_cons, ← hsection]
      exact ⟨hsection', fun hv => hvalid' (hvalid hv)⟩

end Nodes

/-! ## Documents and sections -/

theorem openNode_start (part : Option Section) (tag : ElementTag) :
    openNode part tag.start = (sectionOf tag.localName).or part := rfl

theorem openNode_stop (part : Option Section) (tag : ElementTag) :
    openNode part tag.stop = if (sectionOf tag.localName).isSome then none else part := rfl

/-- What the nodes leave open is what the elements leave open. -/
theorem foldl_openNode_nodes (forest : Forest) (part : Option Section) :
    forest.nodes.foldl openNode part = forest.leftOpen part := by
  induction forest generalizing part with
  | nil => rfl
  | text leaf rest ih =>
      rw [Forest.nodes, List.foldl_cons, ih, Forest.leftOpen, openNode, if_neg leaf.not_stop]
      split <;> rfl
  | empty tag rest ih => rw [Forest.nodes, List.foldl_cons, ih, openNode_start, Forest.leftOpen]
  | pair tag inner rest ihinner ihrest =>
      rw [Forest.nodes, List.cons_append, List.foldl_cons, List.foldl_append, ihinner,
        List.foldl_cons, ihrest, openNode_start, openNode_stop, Forest.leftOpen]
      cases hsection : sectionOf tag.localName with
      | none => rfl
      | some section' => rfl

theorem Forest.text_name {forest : Forest} : ∀ node ∈ forest.nodes, node.type = .text →
    node.localName = some (lit "#text") := by
  induction forest with
  | nil =>
      intro node hnode
      cases hnode
  | text leaf rest ih =>
      intro node hnode htype
      rcases List.mem_cons.mp hnode with rfl | hnode
      · exact leaf.text_name htype
      · exact ih node hnode htype
  | empty tag rest ih =>
      intro node hnode htype
      rcases List.mem_cons.mp hnode with rfl | hnode
      · cases htype
      · exact ih node hnode htype
  | pair tag inner rest ihinner ihrest =>
      intro node hnode htype
      rcases List.mem_append.mp hnode with hnode | hnode
      · rcases List.mem_cons.mp hnode with rfl | hnode
        · cases htype
        · exact ihinner node hnode htype
      · rcases List.mem_cons.mp hnode with rfl | hnode
        · cases htype
        · exact ihrest node hnode htype

section Outside

variable {env : HeaderEnv} {mergeFile : XmlStr → Config → Swish Config} {confFile : XmlStr}
  {h : Headmaker} {tag : ElementTag}

/-- An entry is read as one outside all sections exactly when no section is open. -/
theorem processEntry_outside_iff (hready : h.awaiting = .node) :
    processEntry env tag.start h = .ok { h with awaiting := outsideTarget tag.localName } ↔
      h.inSection = none := by
  have hother : outsideTarget tag.localName ≠ h.awaiting := by
    rw [hready, outsideTarget]
    split <;> simp
  rw [processEntry]
  cases hsection : h.inSection with
  | none =>
      refine iff_of_true ?_ rfl
      rw [outsideTarget]
      by_cases hclass : tag.localName = Swish.classAttributes
      · rw [if_pos hclass]
        exact if_pos hclass
      · rw [if_neg hclass]
        exact if_neg hclass
  | some section' =>
      refine iff_of_false ?_ (by simp)
      intro hok
      cases section' with
      | props => exact hother (readProperty_place hok).awaiting
      | metas => exact hother (readMetaname_place hok).awaiting
      | index =>
          have hawait := congrArg Headmaker.awaiting (Except.ok.inj hok)
          simp only [outsideTarget] at hawait
          split at hawait <;> simp at hawait
      | parser =>
          have hawait := congrArg Headmaker.awaiting (Except.ok.inj hok)
          simp only [outsideTarget] at hawait
          split at hawait <;> simp at hawait
      | aliases =>
          have hawait := congrArg Headmaker.awaiting (Except.ok.inj hok)
          simp only [outsideTarget] at hawait
          split at hawait <;> simp at hawait
      | mime =>
          have hawait := congrArg Headmaker.awaiting (Except.ok.inj hok)
          simp only [outsideTarget] at hawait
          split at hawait <;> simp at hawait

/-- The text behind such a start is stored. -/
theorem readNode_outside {text : Node} (hready : h.awaiting = .node) (htext : text.type = .text) :
    readNode env mergeFile { h with awaiting := outsideTarget tag.localName } text =
      readOutside env tag.localName text.text h := by
  unfold outsideTarget readOutside
  by_cases hclass : tag.localName = Swish.classAttributes
  · rw [if_pos hclass, if_pos hclass]
    simp only [readNode, htext, if_true, readKeyValueStringlist, hready]
  · rw [if_neg hclass, if_neg hclass]
    simp only [readNode, htext, if_true, readKeyValuePair, hready]
    rfl

/-- No call waits for a start tag. -/
theorem awaiting_of_start {h' : Headmaker} (hok : readNode env mergeFile h tag.start = .ok h') :
    h.awaiting = .node := by
  unfold readNode at hok
  split at hok
  · assumption
  all_goals
    simp only [ElementTag.start, reduceCtorEq, if_false] at hok
    cases hok

/-- The start of the root makes the header valid and opens no section. -/
theorem readNode_root {h' : Headmaker} (hroot : tag.localName = Swish.headerRoot)
    (hok : readNode env mergeFile h tag.start = .ok h') :
    h'.isValid = true ∧ h'.inSection = h.inSection := by
  have hkind : nodeKind h.isValid tag.start = .root := by
    rw [nodeKind, if_neg (by simp [ElementTag.start])]
    exact if_pos hroot
  simp only [readNode, awaiting_of_start hok, processNode, hkind] at hok
  cases hok
  exact ⟨rfl, rfl⟩

end Outside

/-- An element beside the sections is read and stored in `misc`, or in `stringlists`, exactly when
no section is left open by an empty tag before it.  `prolog` stands before the root, `before`
between the root's start and the element. -/
theorem readsOutside_iff {env : HeaderEnv} {mergeFile : XmlStr → Config → Swish Config}
    {confFile : XmlStr} (prolog : Forest) (root : ElementTag) (before : Forest) (tag : ElementTag)
    {h : Headmaker} (hroot : root.localName = Swish.headerRoot)
    (hentry : nodeKind true tag.start = .entry)
    (hreach : Reaches env mergeFile confFile (prolog.nodes ++ root.start :: before.nodes) h) :
    ReadsOutside env mergeFile h tag ↔ before.leftOpen (prolog.leftOpen none) = none := by
  obtain ⟨h₁, hprolog, hrest⟩ := run_append_ok_iff.mp hreach.run_eq
  obtain ⟨h₂, hstart, hbefore⟩ := run_cons_ok_iff.mp hrest
  obtain ⟨hsection₁, -⟩ := run_inSection Forest.text_name hprolog
  obtain ⟨hvalid₂, hsection₂⟩ := readNode_root hroot hstart
  obtain ⟨hsection, hvalid⟩ := run_inSection Forest.text_name hbefore
  rw [foldl_openNode_nodes] at hsection₁ hsection
  have hleft : h.inSection = before.leftOpen (prolog.leftOpen none) := by
    rw [hsection, hsection₂, hsection₁]
    rfl
  have hread : readNode env mergeFile h tag.start = processEntry env tag.start h := by
    simp only [readNode, hreach.ready, processNode, hvalid hvalid₂, hentry]
  rw [← hleft, ← processEntry_outside_iff hreach.ready, ← hread]
  refine ⟨fun hreads => hreads.start, fun hstart => ⟨hstart, fun text htext => ?_⟩⟩
  rw [run_cons_of_ok hstart, run_singleton, readNode_outside hreach.ready htext]

/-- An environment whose files are of no interest. -/
def HeaderEnv.noFiles : HeaderEnv where
  loc := .posix
  fileExists _ := false
  readerForFile _ := none
  readerForMemory _ := none
  buildURI _ _ := none
  freshIsValid := false

def bareTag (name : XmlStr) : ElementTag := ⟨name, name, []⟩

/-- `<MIME><foo>text/x</foo></MIME>` -/
def closedMime : Forest :=
  .pair (bareTag Swish.mimeSection)
    (.pair (bareTag (lit "foo"))
      (.text ⟨textNode (lit "text/x"), by decide, by decide, fun _ => rfl⟩ .nil) .nil) .nil

section Runs

variable {mergeFile : XmlStr → Config → Swish Config} {nodes : List Node}

private theorem reaches_of_run
    (h : (run (readNode .noFiles mergeFile) (initHeadmaker .noFiles (lit "c")) nodes).toOption.map
      Headmaker.awaiting = some .node) :
    ∃ h, Reaches .noFiles mergeFile (lit "c") nodes h := by
  obtain ⟨h, hrun, hawait⟩ := exists_ok_of_map h
  exact ⟨h, hrun, hawait⟩

end Runs

/-- A header without `IncludeConfigFile`: nothing is merged. -/
def mergeNothing (_ : XmlStr) (config : Config) : Swish Config := .ok config

/-- Behind a section that is closed an element is read into `misc`. -/
theorem readsOutside_iff_closedMime :
    ∃ h, Reaches .noFiles mergeNothing (lit "c")
        (Forest.nil.nodes ++ (bareTag Swish.headerRoot).start :: closedMime.nodes) h ∧
      (ReadsOutside .noFiles mergeNothing h (bareTag (lit "Foo")) ↔
        closedMime.leftOpen (Forest.nil.leftOpen none) = none) := by
  have hrun : (run (readNode .noFiles mergeNothing) (initHeadmaker .noFiles (lit "c"))
      (Forest.nil.nodes ++ (bareTag Swish.headerRoot).start :: closedMime.nodes)).toOption.map
        Headmaker.awaiting = some .node := rfl
  obtain ⟨h, hreach⟩ := reaches_of_run hrun
  exact ⟨h, hreach, readsOutside_iff _ _ _ _ rfl (by decide) hreach⟩

/-- `<MIME/>` -/
def emptyMime : Forest := .empty (bareTag Swish.mimeSection) .nil

/-- In `<swish><MIME/><Foo>x</Foo></swish>` the text of `Foo` is taken for a MIME type. -/
theorem readsOutside_not_emptyMime :
    ¬ ∀ (mergeFile : XmlStr → Config → Swish Config) (before : Forest) (tag : ElementTag) h,
      nodeKind true tag.start = .entry →
      Reaches .noFiles mergeFile (lit "c")
        (Forest.nil.nodes ++ (bareTag Swish.headerRoot).start :: before.nodes) h →
      ReadsOutside .noFiles mergeFile h tag := by
  intro hall
  let nodes := Forest.nil.nodes ++ (bareTag Swish.headerRoot).start :: emptyMime.nodes
  have hrun : (run (readNode .noFiles fun _ c => .ok c) (initHeadmaker .noFiles (lit "c"))
      nodes).toOption.map Headmaker.awaiting = some .node := rfl
  obtain ⟨h, hreach⟩ := reaches_of_run hrun
  have hread := hall (fun _ c => .ok c) emptyMime (bareTag (lit "Foo")) h (by decide) hreach
  have hnext : (run (readNode .noFiles fun _ c => .ok c) (initHeadmaker .noFiles (lit "c"))
      (nodes ++ [(bareTag (lit "Foo")).start])).toOption.map Headmaker.awaiting =
        some (.value .mimes (lit "Foo")) := rfl
  rw [run_append_of_ok hreach.run_eq, run_singleton, hread.start] at hnext
  have hawait : outsideTarget (lit "Foo") = .value .mimes (lit "Foo") := Option.some.inj hnext
  exact absurd hawait (by decide)

end LibSwish3
