import LibSwish3.HeaderWrite
import LibSwish3.Sections

/-!
# Reading a written header

The reader takes the pieces of a written header one by one and is ready for the next entry behind
each of them, so the indentation between them does not matter.  An entry of a section adds what it
stands for to the config under construction; a list of entries is a fold over the config.

## Main definitions

* `At` — the reader is ready for an entry of a section.
* `Reads` — pieces that are read from one such state to the next.
* `reads_elements` — the rule for the entries of a section.
-/

namespace LibSwish3

open Runs Tables

section Pieces

variable {env : HeaderEnv} {mergeFile : XmlStr → Config → Swish Config}

/-! ## States between two pieces -/

/-- The reader is ready for an entry of the section, and has put together the config so far. -/
structure At (part : Option Section) (c : Config) (h : Headmaker) : Prop where
  awaiting : h.awaiting = .node
  isValid : h.isValid = true
  inSection : h.inSection = part
  config : h.config = c

/-- The pieces are read one after the other, and the reader is ready again behind each. -/
inductive Reads (env : HeaderEnv) (mergeFile : XmlStr → Config → Swish Config) :
    Headmaker → List (List Node) → Headmaker → Prop
  | nil {h : Headmaker} : Reads env mergeFile h [] h
  | cons {h h₁ h' : Headmaker} {piece : List Node} {pieces : List (List Node)}
      {part : Option Section} {c : Config} (hread : run (readNode env mergeFile) h piece = .ok h₁)
      (hat : At part c h₁) (hrest : Reads env mergeFile h₁ pieces h') :
      Reads env mergeFile h (piece :: pieces) h'

theorem Reads.append {h h₁ h₂ : Headmaker} {pieces more : List (List Node)}
    (hfirst : Reads env mergeFile h pieces h₁) (hmore : Reads env mergeFile h₁ more h₂) :
    Reads env mergeFile h (pieces ++ more) h₂ := by
  induction hfirst with
  | nil => exact hmore
  | cons hread hat _ ih => exact .cons hread hat (ih hmore)

theorem Reads.singleton {h h' : Headmaker} {piece : List Node} {part : Option Section}
    {c : Config} (hread : run (readNode env mergeFile) h piece = .ok h') (hat : At part c h') :
    Reads env mergeFile h [piece] h' := .cons hread hat .nil

/-- Indentation is skipped. -/
theorem readNode_indent {h : Headmaker} {node : Node} (hnode : node.IsIndent)
    (hawait : h.awaiting = .node) (hvalid : h.isValid = true) :
    readNode env mergeFile h node = .ok h := by
  have hname : node.localNameOr = lit "#text" := by rw [Node.localNameOr, hnode.localName]; rfl
  have hkind : nodeKind h.isValid node = .skip := by
    rw [nodeKind, hname, if_neg (by simp [hnode.type]), if_neg (by decide), hvalid]
    simp [hnode.blank]
  simp only [readNode, hawait, processNode, hkind]

/-- The pieces are read alike however they are indented. -/
theorem Reads.indents {part : Option Section} {c : Config} {h h' : Headmaker}
    {pieces : List (List Node)} {nodes : List Node} (hreads : Reads env mergeFile h pieces h')
    (hat : At part c h) (hindents : Indents pieces nodes) :
    run (readNode env mergeFile) h nodes = .ok h' := by
  induction hindents generalizing h part c with
  | nil =>
      cases hreads
      rfl
  | blank hnode _ ih =>
      rw [run_cons_of_ok (readNode_indent hnode hat.awaiting hat.isValid)]
      exact ih hreads hat
  | piece piece _ ih =>
      cases hreads with
      | cons hread hat₁ hrest =>
          rw [run_append_of_ok hread]
          exact ih hrest hat₁

/-- Entries one after the other: an entry that is read in a state that meets `I` leads to one
that meets it for the entries behind. -/
theorem reads_elements {α : Type} {part : Option Section} {w : α → HeaderElement}
    {I : Config → List α → Prop}
    (hstep : ∀ c h e es, At part c h → I c (e :: es) →
      ∃ c' h', run (readNode env mergeFile) h (w e).nodes = .ok h' ∧ At part c' h' ∧ I c' es)
    {es : List α} {c : Config} {h : Headmaker} (hat : At part c h) (hI : I c es) :
    ∃ c' h', Reads env mergeFile h ((es.map w).map HeaderElement.nodes) h' ∧ At part c' h' ∧
      I c' [] := by
  induction es generalizing c h with
  | nil => exact ⟨c, h, .nil, hat, hI⟩
  | cons e es ih =>
      obtain ⟨c₁, h₁, hread, hat₁, hI₁⟩ := hstep c h e es hat hI
      obtain ⟨c', h', hreads, hat', hI'⟩ := ih hat₁ hI₁
      exact ⟨c', h', .cons hread hat₁ hreads, hat', hI'⟩

/-- The rule for entries that do one thing each: `f` is what an entry does to the config. -/
theorem reads_entries {α : Type} {part : Option Section} {w : α → HeaderElement}
    {f : Config → α → Config} {J : Config → List α → Prop}
    (hstep : ∀ c h e es, At part c h → J c (e :: es) →
      ∃ h', run (readNode env mergeFile) h (w e).nodes = .ok h' ∧ At part (f c e) h')
    (htail : ∀ c e es, J c (e :: es) → J (f c e) es)
    {es : List α} {c : Config} {h : Headmaker} (hat : At part c h) (hJ : J c es) :
    ∃ h', Reads env mergeFile h ((es.map w).map HeaderElement.nodes) h' ∧
      At part (es.foldl f c) h' := by
  obtain ⟨c', h', hreads, hat', hfold, -⟩ :=
    reads_elements (I := fun c' es' => es'.foldl f c' = es.foldl f c ∧ J c' es')
      (fun c h e es hat hI => by
        obtain ⟨h', hread, hat'⟩ := hstep c h e es hat hI.2
        exact ⟨f c e, h', hread, hat', hI.1, htail c e es hI.2⟩)
      hat ⟨rfl, hJ⟩
  rw [List.foldl_nil] at hfold
  exact ⟨h', hreads, hfold ▸ hat'⟩

/-! ## Single nodes -/

/-- A name under which an entry is read back. -/
structure EntryName (name : XmlStr) : Prop extends Unreserved name where
  ne_text : name ≠ lit "#text"

theorem nodeKind_startNode {name : XmlStr} (hname : EntryName name) (attrs : List Attr) :
    nodeKind true (startNode name attrs) = .entry := by
  have hlocal : (startNode name attrs).localNameOr = name := rfl
  rw [nodeKind, hlocal, if_neg (by simp [startNode]), if_neg hname.ne_root]
  simp [startNode, hname.ne_text, hname.ne_include, hname.no_section]

theorem nodeKind_endNode {name : XmlStr} (hname : EntryName name) :
    nodeKind true (endNode name) = .skip := by
  have hlocal : (endNode name).localNameOr = name := rfl
  rw [nodeKind, hlocal, if_neg (by simp [endNode]), if_neg hname.ne_root]
  simp [endNode, hname.ne_text, hname.no_section]

theorem readNode_startNode {h : Headmaker} {part : Option Section} {c : Config} {name : XmlStr}
    (hat : At part c h) (hname : EntryName name) (attrs : List Attr) :
    readNode env mergeFile h (startNode name attrs) =
      processEntry env (startNode name attrs) h := by
  simp only [readNode, hat.awaiting, processNode, hat.isValid, nodeKind_startNode hname]

theorem readNode_endNode {h : Headmaker} {part : Option Section} {c : Config} {name : XmlStr}
    (hat : At part c h) (hname : EntryName name) :
    readNode env mergeFile h (endNode name) = .ok h := by
  simp only [readNode, hat.awaiting, processNode, hat.isValid, nodeKind_endNode hname]

variable (env mergeFile) in
/-- The comment is skipped. -/
theorem reads_comment {h : Headmaker} {part : Option Section} {c : Config} (hat : At part c h)
    (text : XmlStr) : Reads env mergeFile h (HeaderPart.comment text).pieces h := by
  refine .singleton ?_ hat
  simp only [run_singleton, readNode, hat.awaiting, processNode, nodeKind, if_true]

variable (env mergeFile) in
/-- The end of the root opens and closes nothing. -/
theorem reads_rootEnd {h : Headmaker} {part : Option Section} {c : Config} (hat : At part c h) :
    Reads env mergeFile h [[endNode Swish.headerRoot]] h := by
  refine .singleton ?_ hat
  have hkind : nodeKind h.isValid (endNode Swish.headerRoot) = .root := by
    rw [hat.isValid]
    decide
  have hsame : { h with isValid := true, awaiting := .node } = h := by
    rw [← hat.isValid, ← hat.awaiting]
  simp only [run_singleton, readNode, hat.awaiting, processNode, hkind, hsame]

/-! ## Sections -/

theorem ne_of_sectionOf {name : XmlStr} {s : Section} (h : sectionOf name = some s) :
    name ≠ Swish.headerRoot ∧ name ≠ Swish.includeFile ∧ name ≠ lit "#text" := by
  refine ⟨?_, ?_, ?_⟩
  · rintro rfl
    rw [sectionOf_headerRoot] at h
    cases h
  · rintro rfl
    rw [sectionOf_includeFile] at h
    cases h
  · rintro rfl
    rw [sectionOf_text] at h
    cases h

/-- The start of a section opens it, whatever an empty section tag has left open. -/
theorem readNode_sectionStart {h : Headmaker} {part : Option Section} {c : Config}
    {name : XmlStr} {s : Section} (hat : At part c h) (hsection : sectionOf name = some s) :
    ∃ h', readNode env mergeFile h (startNode name []) = .ok h' ∧ At (some s) c h' := by
  obtain ⟨hroot, hinclude, htext⟩ := ne_of_sectionOf hsection
  have hlocal : (startNode name []).localNameOr = name := rfl
  have hkind : nodeKind true (startNode name []) = .sectionStart s := by
    rw [nodeKind, hlocal, if_neg (by simp [startNode]), if_neg hroot]
    simp [startNode, htext, hinclude, hsection]
  refine ⟨{ h.reset with inSection := some s }, ?_, hat.awaiting, hat.isValid, rfl, hat.config⟩
  simp only [readNode, hat.awaiting, processNode, hat.isValid, hkind]

theorem readNode_sectionEnd {h : Headmaker} {part : Option Section} {c : Config}
    {name : XmlStr} {s : Section} (hat : At part c h) (hsection : sectionOf name = some s) :
    ∃ h', readNode env mergeFile h (endNode name) = .ok h' ∧ At none c h' := by
  obtain ⟨hroot, -, htext⟩ := ne_of_sectionOf hsection
  have hlocal : (endNode name).localNameOr = name := rfl
  have hkind : nodeKind true (endNode name) = .sectionEnd := by
    rw [nodeKind, hlocal, if_neg (by simp [endNode]), if_neg hroot]
    simp [endNode, htext, hsection]
  refine ⟨h.reset, ?_, hat.awaiting, hat.isValid, rfl, hat.config⟩
  simp only [readNode, hat.awaiting, processNode, hat.isValid, hkind]

/-- A section: its entries are read in it, and it is closed behind them if there are any. -/
theorem reads_part {h : Headmaker} {part : Option Section} {c : Config} {name : XmlStr}
    {s : Section} {elements : List HeaderElement} {Q : Config → Prop} (hat : At part c h)
    (hsection : sectionOf name = some s)
    (helements : ∀ h₁, At (some s) c h₁ → ∃ c' h₂,
      Reads env mergeFile h₁ (elements.map HeaderElement.nodes) h₂ ∧ At (some s) c' h₂ ∧ Q c') :
    ∃ c' h' part', Reads env mergeFile h (HeaderPart.part name elements).pieces h' ∧
      At part' c' h' ∧ (elements ≠ [] → part' = none) ∧ Q c' := by
  obtain ⟨h₁, hstart, hat₁⟩ := readNode_sectionStart hat hsection
  obtain ⟨c', h₂, hreads, hat₂, hQ⟩ := helements h₁ hat₁
  cases elements with
  | nil =>
      cases hreads
      exact ⟨c', h₁, some s, .singleton (run_singleton.trans hstart) hat₁, hat₂,
        fun hne => absurd rfl hne, hQ⟩
  | cons first rest =>
      obtain ⟨h₃, hend, hat₃⟩ := readNode_sectionEnd hat₂ hsection
      refine ⟨c', h₃, none, ?_, hat₃, fun _ => rfl, hQ⟩
      exact .cons (run_singleton.trans hstart) hat₁
        (hreads.append (.singleton (run_singleton.trans hend) hat₃))

end Pieces

end LibSwish3
