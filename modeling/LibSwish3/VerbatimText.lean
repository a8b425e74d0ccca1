import LibSwish3.AppendCounts
import LibSwish3.Sax

/-!
# Verbatim text

A Property with `verbatim` keeps its text as it is, and every other one has the control bytes and
the outer blanks cleaned up.  But `add_stack_to_prop_buf` looks at one Property only, the one that
ends, and cleans where none does; what it decides goes for every Property on the stack.

`appendedPieces` are the texts that one call appends, with the names of the buffers.

## Main definitions

* `appendedPieces`, `AppendsPieces` — what a call appends.
* `receivers` — the Properties that get a text.
* `PiecesRight`, `SameCleaning`, `piecesRight_iff`.
-/

namespace LibSwish3

open Runs

/-- The texts that adding a text under these names appends.  Blank text is skipped, and what is
left of a text goes to the next name. -/
def appendedPieces (cleanwsp : Bool) : XmlStr → List XmlStr → List (XmlStr × XmlStr)
  | _, [] => []
  | str, name :: names =>
    (if strAllWs (cstr str) then [] else [(name, cleanedText cleanwsp str)]) ++
      appendedPieces cleanwsp (cleanedInPlace cleanwsp str) names

/-- The texts for a name. -/
def piecesFor (pieces : List (XmlStr × XmlStr)) (name : XmlStr) : List XmlStr :=
  (pieces.filter (·.1 = name)).map Prod.snd

/-- Every buffer has its texts appended, one after the other. -/
def AppendsPieces (nb nb' : NamedBuffer) (pieces : List (XmlStr × XmlStr)) : Prop :=
  ∀ name, nb'.content name =
    (piecesFor pieces name).foldl (joinText · Swish.tokenposBumper ·) (nb.content name)

/-- The names that get a text: none where it is blank, and only the first where cleaning leaves
nothing of it. -/
def receivers (cleanwsp : Bool) (str : XmlStr) (names : List XmlStr) : List XmlStr :=
  if strAllWs (cstr str) then []
  else if cleanedText cleanwsp str = [] then names.take 1
  else names

/-- The setting of the Property of that name. -/
def isVerbatim (config : Config) (name : XmlStr) : Bool :=
  ((config.properties.lookup name).map Property.verbatim).getD false

/-- What one `add_stack_to_prop_buf` appends. -/
def propPieces (pd : ParserData) (storedAs : Option XmlStr) (cleanwsp : Bool) :
    List (XmlStr × XmlStr) :=
  appendedPieces cleanwsp pd.propBuf (propNamesAdded pd storedAs)

/-- Every text that a call appends is the raw one for a verbatim Property and the cleaned one for
any other. -/
def PiecesRight (pd : ParserData) (storedAs : Option XmlStr) (cleanwsp : Bool) : Prop :=
  ∀ piece ∈ propPieces pd storedAs cleanwsp,
    piece.2 = cleanedText (!isVerbatim pd.config piece.1) pd.propBuf

/-- The text is clean as it is, or the Properties that get it have the setting of the call. -/
def SameCleaning (pd : ParserData) (storedAs : Option XmlStr) (cleanwsp : Bool) : Prop :=
  cleanedText true pd.propBuf = pd.propBuf ∨
    ∀ name ∈ receivers cleanwsp pd.propBuf (propNamesAdded pd storedAs),
      isVerbatim pd.config name = !cleanwsp

section Pieces

variable {pd pd' : ParserData} {storedAs baked : Option XmlStr} {cleanwsp : Bool}
  {nb nb' nb'' : NamedBuffer} {name str : XmlStr} {names : List XmlStr} {tags : List Tag}
  {s s' : NamedBuffer × XmlStr} {pieces : List (XmlStr × XmlStr)}

@[simp] theorem appendedPieces_nil : appendedPieces cleanwsp str [] = [] := rfl

/-! ## What a call appends -/

theorem AppendsPieces.nil : AppendsPieces nb nb [] := fun _ => rfl

/-- One addition, and those behind it. -/
theorem AppendsPieces.nbAddStr
    (hadd : nbAddStr nb name str Swish.tokenposBumper cleanwsp false = .ok nb')
    (hrest : AppendsPieces nb' nb'' (appendedPieces cleanwsp (cleanedInPlace cleanwsp str) names)) :
    AppendsPieces nb nb'' (appendedPieces cleanwsp str (name :: names)) := by
  intro k
  rw [hrest k, content_nbAddStr hadd k, appendedPieces, piecesFor, piecesFor, List.filter_append,
    List.map_append, List.foldl_append]
  cases hblank : strAllWs (cstr str) with
  | true => simp
  | false =>
      by_cases hk : k = name
      · simp [hk]
      · simp [hk, Ne.symm hk]

/-- The additions under the names on the stack. -/
theorem propStackStep_pieces (hok : run (propStackStep cleanwsp) s tags = .ok s') :
    AppendsPieces s.1 s'.1 (appendedPieces cleanwsp s.2
      ((tags.map Tag.baked).filter (· ≠ Swish.domStr))) := by
  induction tags generalizing s with
  | nil =>
      cases hok
      exact .nil
  | cons tag tags ih =>
      obtain ⟨s₁, hstep, hrest⟩ := run_cons_ok_iff.mp hok
      unfold propStackStep at hstep
      rw [List.map_cons]
      by_cases heq : tag.baked = Swish.domStr
      · rw [if_pos heq] at hstep
        cases hstep
        rw [List.filter_cons_of_neg (by simpa using heq)]
        exact ih hrest
      · rw [if_neg heq] at hstep
        obtain ⟨nb₁, hadd, hstep⟩ := bind_ok_iff.mp hstep
        cases hstep
        rw [List.filter_cons_of_pos (by simpa using heq)]
        exact .nbAddStr hadd (ih hrest)

/-- A call appends its pieces. -/
theorem addStackToPropBuf_pieces (htarget : propTarget pd.config baked = .ok (storedAs, cleanwsp))
    (hok : addStackToPropBuf pd baked = .ok pd') :
    AppendsPieces pd.properties pd'.properties (propPieces pd storedAs cleanwsp) := by
  obtain ⟨⟨s, cleanwsp'⟩, hadd, hok⟩ := bind_ok_iff.mp hok
  obtain ⟨⟨nb', text'⟩, hrun, hok⟩ := bind_ok_iff.mp hok
  cases hok
  obtain ⟨rfl, hcases⟩ := addToProperty_cases htarget hadd
  have hstack := propStackStep_pieces hrun
  rcases hcases with ⟨rfl, rfl⟩ | ⟨first, nb, rfl, hnb, rfl⟩
  · exact hstack
  · exact .nbAddStr hnb hstack

/-! ## Whether it is right -/

theorem appendedPieces_of_blank (hblank : strAllWs (cstr str) = true) (names : List XmlStr) :
    appendedPieces cleanwsp str names = [] := by
  induction names generalizing str with
  | nil => rfl
  | cons name names ih =>
      rw [appendedPieces, if_pos hblank, List.nil_append,
        ih ((strAllWs_cleanedInPlace_iff str).mpr (.inl hblank))]

/-- Every name that gets a text gets the same. -/
theorem appendedPieces_eq (cleanwsp : Bool) (str : XmlStr) (names : List XmlStr) :
    appendedPieces cleanwsp str names =
      (receivers cleanwsp str names).map fun name => (name, cleanedText cleanwsp str) := by
  induction names generalizing str with
  | nil =>
      rw [receivers]
      split
      · rfl
      · split <;> rfl
  | cons name names ih =>
      cases hblank : strAllWs (cstr str) with
      | true => rw [appendedPieces_of_blank hblank, receivers, if_pos hblank, List.map_nil]
      | false =>
          have hiff := @strAllWs_cleanedInPlace_iff cleanwsp str
          rw [appendedPieces, receivers, if_neg (by simp [hblank]), if_neg (by simp [hblank])]
          by_cases htext : cleanedText cleanwsp str = []
          · have hafter : strAllWs (cstr (cleanedInPlace cleanwsp str)) = true := by
              refine hiff.mpr (.inr ⟨?_, htext⟩)
              cases cleanwsp with
              | true => rfl
              | false =>
                  rw [cleanedText, if_neg Bool.false_ne_true] at htext
                  rw [htext] at hblank
                  cases hblank
            rw [if_pos htext, appendedPieces_of_blank hafter]
            simp
          · have hafter : strAllWs (cstr (cleanedInPlace cleanwsp str)) = false := by
              rw [← Bool.not_eq_true, hiff, hblank]
              simp [htext]
            rw [if_neg htext, ih, cleanedText_cleanedInPlace, receivers, if_neg (by simp [hafter]),
              cleanedText_cleanedInPlace, if_neg htext]
            simp

theorem cleanedText_eq_iff (b b' : Bool) (str : XmlStr) :
    cleanedText b str = cleanedText b' str ↔ cleanedText true str = str ∨ b = b' := by
  have hraw : cleanedText false str = str := rfl
  cases b <;> cases b' <;> simp [hraw, eq_comm]

/-- A call appends what each Property asks for exactly if the text is clean or they all ask for the
same. -/
theorem piecesRight_iff_sameCleaning :
    PiecesRight pd storedAs cleanwsp ↔ SameCleaning pd storedAs cleanwsp := by
  have hpiece : ∀ name, cleanedText cleanwsp pd.propBuf =
      cleanedText (!isVerbatim pd.config name) pd.propBuf ↔
        cleanedText true pd.propBuf = pd.propBuf ∨ isVerbatim pd.config name = !cleanwsp := by
    intro name
    rw [cleanedText_eq_iff]
    cases cleanwsp <;> cases isVerbatim pd.config name <;> simp
  rw [PiecesRight, propPieces, appendedPieces_eq]
  simp only [List.forall_mem_map, hpiece, SameCleaning]
  by_cases hclean : cleanedText true pd.propBuf = pd.propBuf
  · simp [hclean]
  · simp [hclean]

end Pieces

/-- Each call appends its pieces, and they are what the Properties ask for exactly if the text is
clean as it is or the Properties that get it all have the setting of the call. -/
theorem piecesRight_iff (pd pd' : ParserData) (baked storedAs : Option XmlStr) (cleanwsp : Bool)
    (htarget : propTarget pd.config baked = .ok (storedAs, cleanwsp))
    (hok : addStackToPropBuf pd baked = .ok pd') :
    AppendsPieces pd.properties pd'.properties (propPieces pd storedAs cleanwsp) ∧
      (PiecesRight pd storedAs cleanwsp ↔ SameCleaning pd storedAs cleanwsp) :=
  ⟨addStackToPropBuf_pieces htarget hok, piecesRight_iff_sameCleaning⟩

/-- The default config with a verbatim Property. -/
def verbatimConfig : Config :=
  let c := configSetDefault (lit "C")
  { c with properties := c.properties.insert (lit "v") { propertyInit (lit "v") with
    verbatim := true } }

/-- `<swishdescription> one <swishtitle> two ` -/
def titleInDescription : List SaxEvent :=
  [.startElementNs Swish.propDescription none none [], .characters (lit " one "),
    .startElementNs Swish.propTitle none none [], .characters (lit " two ")]

/-- The text of a Property inside another one that is not verbatim either. -/
theorem piecesRight_swishtitle : ∃ pd pd',
    run (saxStep .alone 0) (initParserData verbatimConfig .idle docinfoInit) titleInDescription =
        .ok pd ∧
      pd.propstack.tags.map (·.baked) =
        [Swish.propTitle, Swish.propDescription, Swish.domStr] ∧
      pd.propBuf = lit " two " ∧
      addStackToPropBuf pd (some Swish.propTitle) = .ok pd' ∧
      PiecesRight pd (some Swish.propTitle) true := by
  let pd := ((run (saxStep .alone 0) (initParserData verbatimConfig .idle docinfoInit)
    titleInDescription).toOption).getD (initParserData verbatimConfig .idle docinfoInit)
  have hadded : (addStackToPropBuf pd (some Swish.propTitle)).toOption.map ParserData.propBuf =
      some [] := by
    decide +kernel
  obtain ⟨pd', hok, -⟩ := exists_ok_of_map hadded
  exact ⟨pd, pd', rfl, rfl, rfl, hok,
    ((piecesRight_iff pd pd' _ _ true rfl hok).2).mpr (.inr (by decide +kernel))⟩

/-- In `<swishtitle><v> x </v>` the end of the verbatim `v` adds the raw text to `swishtitle`. -/
theorem not_piecesRight_nested :
    ∃ pd, run (saxStep .alone 0) (initParserData verbatimConfig .idle docinfoInit)
        [.startElementNs Swish.propTitle none none [], .startElementNs (lit "v") none none [],
          .characters (lit " x "), .endElementNs (lit "v") none] = .ok pd ∧
      isVerbatim pd.config Swish.propTitle = false ∧
      pd.properties.content Swish.propTitle = lit " x " ∧
      cleanedText true (lit " x ") = lit "x" := by
  obtain ⟨pd, hrun, hstate⟩ :=
    exists_ok_of_map (x := run (saxStep .alone 0) (initParserData verbatimConfig .idle docinfoInit)
      [.startElementNs Swish.propTitle none none [], .startElementNs (lit "v") none none [],
        .characters (lit " x "), .endElementNs (lit "v") none])
      (f := fun pd => (isVerbatim pd.config Swish.propTitle,
        pd.properties.content Swish.propTitle)) (b := (false, lit " x ")) rfl
  obtain ⟨hverbatim, hcontent⟩ := Prod.ext_iff.mp hstate
  exact ⟨pd, hrun, hverbatim, hcontent, by decide⟩

end LibSwish3
