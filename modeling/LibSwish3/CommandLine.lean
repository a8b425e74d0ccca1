import LibSwish3.Crawl
import LibSwish3.StandardInput

/-!
# The operands of the program

To index, the program goes through its operands, each a directory, a file, or a lone `-` for
messages on the standard input, and then through the lines of a file list.  When it was called to
delete, the operands and the lines are the URIs of the documents to delete.  Blank lines and lines
that begin with `#` are passed over.

Afterwards the index has a document for what it had one for before and for the files that were
named or lie in the directories; or, after deleting, for what was not named.

## Main definitions

* `CommandLine`, `indexingMode` — what `main` does between opening the index and closing it.
* `namesGiven`, `ToIndex` — what is to be deleted, or to be indexed.
* `indexingMode_documents`, `indexingMode_deletes`.
-/

namespace LibSwish3

open Runs Walks

/-- How the program was called. -/
structure CommandLine where
  operands : List XmlStr
  filelist : Option XmlStr
  deleteMode : Bool
  followSymlinks : Bool

/-- What `main` asks of its surroundings. -/
structure MainEnv extends CrawlEnv where
  /-- What a file holds, none where it cannot be opened. -/
  fileContent : XmlStr → Option XmlStr
  stdin : XmlStr
  /-- How deep directories may be nested. -/
  nesting : Nat

/-- `swish_io_is_skippable_line`. -/
def ioIsSkippableLine (str : XmlStr) : Bool :=
  let line := strSkipWs str
  line.length = 0 || (line.length = 1 && line.head? = some newline) || line.head? = some 35

/-- The string of a line of the file list, if it is not passed over. -/
def operableLine (line : XmlStr) : Option XmlStr :=
  if line = [] then none
  else if ioIsSkippableLine (cstr line) then none
  else some (cstr line)

section Main

variable (env : MainEnv) (commandLine : CommandLine)

/-- A document is deleted, and counted; `delete_document` is true where there was one. -/
def deleteOne (st : Nat × ProgramState env.index.xapian) (uri : XmlStr) :
    Except Stop (Nat × ProgramState env.index.xapian) := do
  let index ← deleteDocument env.index.xapian st.2.index uri
  .ok (if env.index.xapian.termExists st.2.index.wdb (uniqueId uri) then st.1 + 1 else st.1,
    { st.2 with index })

/-- An operand that is to be indexed. -/
def indexOperand (st : Nat × ProgramState env.index.xapian) (arg : XmlStr) :
    Except Stop (Nat × ProgramState env.index.xapian) :=
  if fsIsDir env.fs arg then do
    let (files, app) ← parseDirectory env.fs (parseFile env.toCrawlEnv)
      commandLine.followSymlinks env.nesting st.2 arg
    .ok (st.1 + files.toNat, app)
  else countFile (parseFile env.toCrawlEnv) st arg

/-- An operand that is a name. -/
def mainOperand (st : Nat × ProgramState env.index.xapian) (arg : XmlStr) :
    Except Stop (Nat × ProgramState env.index.xapian) :=
  if commandLine.deleteMode then deleteOne env st arg else indexOperand env commandLine st arg

/-- The loop over the operands.  The standard input is read to its end, and what was counted before
it is forgotten. -/
def mainOperands : (stdin : XmlStr) → Nat × ProgramState env.index.xapian → List XmlStr →
    Except Stop (Nat × ProgramState env.index.xapian)
  | _, st, [] => .ok st
  | stdin, st, arg :: args =>
    if arg.head? ≠ some 45 then do
      let st ← mainOperand env commandLine st arg
      mainOperands stdin st args
    else if arg.length = 1 then do
      let (files, app) ← parseStdin env.toProgramEnv stdin st.2
      mainOperands [] (files.toNat, app) args
    else mainOperands stdin st args

/-- A name in the file list. -/
def mainFile (st : Nat × ProgramState env.index.xapian) (buf : XmlStr) :
    Except Stop (Nat × ProgramState env.index.xapian) :=
  if commandLine.deleteMode then deleteOne env st buf
  else countFile (parseFile env.toCrawlEnv) st buf

/-- A line of the file list. -/
def mainLine (st : Nat × ProgramState env.index.xapian) (line : XmlStr) :
    Except Stop (Nat × ProgramState env.index.xapian) :=
  match operableLine line with
  | none => .ok st
  | some buf => mainFile env commandLine st buf

/-- `main` in indexing mode, behind the merging of the config: the number of files it prints, and
what becomes of the index. -/
def indexingMode (st : ProgramState env.index.xapian) :
    Except Stop (Nat × ProgramState env.index.xapian) := do
  let st ← mainOperands env commandLine env.stdin (0, st) commandLine.operands
  match commandLine.filelist with
  | none => .ok st
  | some filelist =>
    match env.fileContent filelist with
    | none => .error (.library (.croak (lit "failed to open file: " ++ filelist)))
    | some content => run (mainLine env commandLine) st (content.splitOn newline)

/-! ## What is named -/

/-- The operands that are names. -/
def namesOf (operands : List XmlStr) : List XmlStr := operands.filter (·.head? ≠ some 45)

/-- The names in the file list. -/
def listedNames : List XmlStr :=
  match commandLine.filelist.bind env.fileContent with
  | none => []
  | some content => (content.splitOn newline).filterMap operableLine

/-- All names. -/
def namesGiven : List XmlStr := namesOf commandLine.operands ++ listedNames env commandLine

/-- The files that are to be indexed: those in the directories that are named, and those that are
named themselves. -/
def ToIndex (path : XmlStr) : Prop :=
  (∃ dir ∈ namesOf commandLine.operands, fsIsDir env.fs dir = true ∧
    Crawled env.fs commandLine.followSymlinks dir path) ∨
  ((path ∈ namesOf commandLine.operands ∧ fsIsDir env.fs path = false ∨
    path ∈ listedNames env commandLine) ∧ env.sax.fileExists path = true)

end Main

/-! ## The names that are gone through -/

section Names

variable {env : MainEnv} {commandLine : CommandLine} {name : XmlStr} {names : List XmlStr}
  {st : ProgramState env.index.xapian} {s t : Nat × ProgramState env.index.xapian}
  {uris : XmlStr → Prop}

theorem mainOperand_of_index (hmode : commandLine.deleteMode = false) :
    mainOperand env commandLine = indexOperand env commandLine := by
  funext s arg
  exact if_neg (by simp [hmode])

theorem mainFile_of_index (hmode : commandLine.deleteMode = false) :
    mainFile env commandLine = countFile (parseFile env.toCrawlEnv) := by
  funext s buf
  exact if_neg (by simp [hmode])

theorem mainOperand_of_delete (hmode : commandLine.deleteMode = true) :
    mainOperand env commandLine = deleteOne env := by
  funext s arg
  exact if_pos hmode

theorem mainFile_of_delete (hmode : commandLine.deleteMode = true) :
    mainFile env commandLine = deleteOne env := by
  funext s buf
  exact if_pos hmode

/-- The operands that are no names change nothing. -/
theorem mainOperands_eq_run {operands : List XmlStr} (hstdin : lit "-" ∉ operands)
    (stdin : XmlStr) (s : Nat × ProgramState env.index.xapian) :
    mainOperands env commandLine stdin s operands =
      run (mainOperand env commandLine) s (namesOf operands) := by
  induction operands generalizing s with
  | nil => rfl
  | cons arg args ih =>
      have ih := ih fun hmem => hstdin (List.mem_cons_of_mem arg hmem)
      rw [mainOperands, namesOf]
      by_cases hname : arg.head? ≠ some 45
      · rw [if_pos hname, List.filter_cons_of_pos (by simpa using hname), run_cons_eq_bind]
        exact congrArg _ (funext ih)
      · have hlong : arg.length ≠ 1 := by
          intro hlength
          obtain ⟨c, rfl⟩ := List.length_eq_one_iff.mp hlength
          have hdash : c = 45 := by simpa using hname
          exact hstdin (hdash ▸ List.mem_cons_self)
        rw [if_neg hname, if_neg hlong, List.filter_cons_of_neg (by simpa using hname)]
        exact ih s

/-- The program goes through the operands, and then through the names in the file list. -/
theorem indexingMode_ok (hrun : indexingMode env commandLine st = .ok t) :
    ∃ s, mainOperands env commandLine env.stdin (0, st) commandLine.operands = .ok s ∧
      run (mainFile env commandLine) s (listedNames env commandLine) = .ok t := by
  obtain ⟨s, hoperands, hlines⟩ := bind_ok_iff.mp hrun
  refine ⟨s, hoperands, ?_⟩
  unfold listedNames
  cases hlist : commandLine.filelist with
  | none =>
      rw [hlist] at hlines
      exact hlines
  | some filelist =>
      simp only [hlist] at hlines
      rw [Option.bind_some]
      cases hcontent : env.fileContent filelist with
      | none => rw [hcontent] at hlines; cases hlines
      | some content =>
          simp only [hcontent] at hlines
          rw [← hlines]
          refine (run_filterMap ?_ ?_ s).symm
          · intro s line _ hname
            simp only [mainLine, hname]
          · intro s name line _ hname
            simp only [mainLine, hname]

/-! ## Deleting -/

/-- A name that has a document is deleted and counted. -/
theorem deleteOne_hasUris (hX : env.index.xapian.Documented)
    (h : HasUris env.index s.2.index uris) (hok : deleteOne env s name = .ok t) :
    HasUris env.index t.2.index (fun uri => uris uri ∧ uri ≠ name) ∧
      (uris name → t.1 = s.1 + 1) ∧ (¬uris name → t.1 = s.1) := by
  obtain ⟨index, hdelete, hok⟩ := bind_ok_iff.mp hok
  cases hok
  refine ⟨h.delete hX hdelete, fun hname => ?_, fun hname => ?_⟩
  · exact if_pos ((h.termExists_iff hX name).mpr hname)
  · exact if_neg (mt (h.termExists_iff hX name).mp hname)

/-- After a run that deletes, what was named is gone, and has been counted once. -/
theorem run_deleteOne (hX : env.index.xapian.Documented) (h : HasUris env.index s.2.index uris)
    (hrun : run (deleteOne env) s names = .ok t) :
    HasUris env.index t.2.index (fun uri => uris uri ∧ uri ∉ names) ∧
      ∃ gone : List XmlStr, gone.Nodup ∧ t.1 = s.1 + gone.length ∧
        ∀ uri, uri ∈ gone ↔ uris uri ∧ uri ∈ names := by
  induction names generalizing s uris with
  | nil =>
      cases hrun
      exact ⟨h.congr (by simp), [], by simp⟩
  | cons name names ih =>
      obtain ⟨s₁, hstep, hrun⟩ := run_cons_ok_iff.mp hrun
      obtain ⟨h₁, hcounted, hnot⟩ := deleteOne_hasUris hX h hstep
      obtain ⟨hrest, gone, honce, hlength, hgone⟩ := ih h₁ hrun
      refine ⟨hrest.congr fun uri => by simp [and_assoc], ?_⟩
      by_cases hname : uris name
      · refine ⟨name :: gone, List.nodup_cons.mpr ⟨fun hmem => ?_, honce⟩, ?_, fun uri => ?_⟩
        · exact ((hgone name).mp hmem).1.2 rfl
        · rw [hlength, hcounted hname, List.length_cons]
          omega
        · rw [List.mem_cons, hgone, List.mem_cons]
          by_cases heq : uri = name
          · simp [heq, hname]
          · simp [heq]
      · refine ⟨gone, honce, by rw [hlength, hnot hname], fun uri => ?_⟩
        rw [hgone, List.mem_cons]
        by_cases heq : uri = name
        · simp [heq, hname]
        · simp [heq]

/-! ## Indexing -/

/-- A run whose steps add documents adds those of all its inputs. -/
theorem HasUrisIfReplaced.run_adds {α : Type}
    {step : Nat × ProgramState env.index.xapian → α →
      Except Stop (Nat × ProgramState env.index.xapian)}
    {adds : α → XmlStr → Prop} {es : List α}
    (hstep : ∀ s e t uris, HasUrisIfReplaced env.index s.2.index uris → step s e = .ok t →
      HasUrisIfReplaced env.index t.2.index fun uri => uris uri ∨ adds e uri)
    (h : HasUrisIfReplaced env.index s.2.index uris) (hrun : Runs.run step s es = .ok t) :
    HasUrisIfReplaced env.index t.2.index (fun uri => uris uri ∨ ∃ e ∈ es, adds e uri) := by
  induction es generalizing s uris with
  | nil =>
      cases hrun
      exact h.congr (by simp)
  | cons e es ih =>
      obtain ⟨s₁, hfirst, hrun⟩ := run_cons_ok_iff.mp hrun
      exact (ih (hstep s e s₁ uris h hfirst) hrun).congr fun uri => by simp [or_assoc]

theorem HasUrisIfReplaced.countFile (hX : env.index.xapian.Documented)
    (h : HasUrisIfReplaced env.index s.2.index uris)
    (hok : LibSwish3.countFile (parseFile env.toCrawlEnv) s name = .ok t) :
    HasUrisIfReplaced env.index t.2.index
      (fun uri => uris uri ∨ uri = name ∧ env.sax.fileExists uri = true) := by
  obtain ⟨⟨res, st'⟩, hparse, hok⟩ := bind_ok_iff.mp hok
  cases hok
  exact h.indexFile hX (indexFile_of_parseFile hparse)

/-- What an operand adds: the files in a directory, or itself. -/
theorem HasUrisIfReplaced.indexOperand (hX : env.index.xapian.Documented)
    (h : HasUrisIfReplaced env.index s.2.index uris)
    (hok : LibSwish3.indexOperand env commandLine s name = .ok t) :
    HasUrisIfReplaced env.index t.2.index (fun uri => uris uri ∨
      (fsIsDir env.fs name = true ∧ Crawled env.fs commandLine.followSymlinks name uri ∨
        fsIsDir env.fs name = false ∧ uri = name ∧ env.sax.fileExists uri = true)) := by
  unfold LibSwish3.indexOperand at hok
  cases hdir : fsIsDir env.fs name with
  | true =>
      rw [if_pos hdir] at hok
      obtain ⟨⟨n, app⟩, hcrawl, hok⟩ := bind_ok_iff.mp hok
      cases hok
      exact (h.parseDirectory hX hcrawl).congr (by simp)
  | false =>
      rw [if_neg (by simp [hdir])] at hok
      exact (h.countFile hX hok).congr (by simp)

/-- What an operand that is a name adds. -/
def OperandAdds (env : MainEnv) (commandLine : CommandLine) (name uri : XmlStr) : Prop :=
  fsIsDir env.fs name = true ∧ Crawled env.fs commandLine.followSymlinks name uri ∨
    fsIsDir env.fs name = false ∧ uri = name ∧ env.sax.fileExists uri = true

theorem ConfigInvariant.countFile {I : Config → Prop} (H : ConfigInvariant I)
    (hI : I s.2.config)
    (hok : LibSwish3.countFile (parseFile env.toCrawlEnv) s name = .ok t) : I t.2.config := by
  obtain ⟨⟨res, st'⟩, hparse, hok⟩ := bind_ok_iff.mp hok
  cases hok
  exact H.indexFile hI (indexFile_of_parseFile hparse)

theorem ConfigInvariant.indexOperand {I : Config → Prop} (H : ConfigInvariant I)
    (hI : I s.2.config) (hok : LibSwish3.indexOperand env commandLine s name = .ok t) :
    I t.2.config := by
  unfold LibSwish3.indexOperand at hok
  split_ifs at hok with hdir
  · obtain ⟨⟨n, app⟩, hcrawl, hok⟩ := bind_ok_iff.mp hok
    cases hok
    cases hfuel : env.nesting with
    | zero => rw [hfuel] at hcrawl; cases hcrawl
    | succ fuel =>
        rw [hfuel, parseDirectory_eq_visit] at hcrawl
        obtain ⟨files, -, hfiles⟩ := walk_of_visit hcrawl
        exact H.run_indexFile hI (run_indexFile_of_count hfiles)
  · exact H.countFile hI hok

/-- What the operands add, where the standard input adds `offered` as long as `I` holds of the
config. -/
theorem HasUrisIfReplaced.mainOperands {I : Config → Prop} {operands : List XmlStr}
    {stdin : XmlStr} {offered : XmlStr → Prop} (hX : env.index.xapian.Documented)
    (hmode : commandLine.deleteMode = false) (H : ConfigInvariant I)
    (hread : ∀ st n st' uris, I st.config → HasUrisIfReplaced env.index st.index uris →
      LibSwish3.parseStdin env.toProgramEnv stdin st = .ok (n, st') →
      HasUrisIfReplaced env.index st'.index fun uri => uris uri ∨ offered uri)
    (hI : I s.2.config) (h : HasUrisIfReplaced env.index s.2.index uris)
    (hrun : LibSwish3.mainOperands env commandLine stdin s operands = .ok t) :
    HasUrisIfReplaced env.index t.2.index (fun uri => uris uri ∨
      (∃ name ∈ namesOf operands, OperandAdds env commandLine name uri) ∨
        lit "-" ∈ operands ∧ offered uri) := by
  induction operands generalizing s uris stdin offered I with
  | nil =>
      cases hrun
      exact h.congr (by simp [namesOf])
  | cons arg args ih =>
      rw [LibSwish3.mainOperands] at hrun
      by_cases hname : arg.head? ≠ some 45
      · rw [if_pos hname, mainOperand_of_index hmode] at hrun
        obtain ⟨s₁, hstep, hrun⟩ := bind_ok_iff.mp hrun
        have h₁ := h.indexOperand hX hstep
        have hdash : lit "-" ≠ arg := by rintro rfl; exact hname rfl
        refine (ih H hread (H.indexOperand hI hstep) h₁ hrun).congr fun uri => ?_
        rw [namesOf, namesOf, List.filter_cons_of_pos (by simpa using hname)]
        simp only [List.mem_cons, hdash, false_or, exists_eq_or_imp, OperandAdds, or_assoc]
      · rw [if_neg hname] at hrun
        have hhead : arg.head? = some 45 := by simpa using hname
        have hnames : namesOf (arg :: args) = namesOf args :=
          List.filter_cons_of_neg (by simpa using hname)
        rw [hnames]
        split_ifs at hrun with hlong
        · obtain ⟨c, rfl⟩ := List.length_eq_one_iff.mp hlong
          cases hhead
          obtain ⟨⟨n, st₁⟩, hstdin, hrun⟩ := bind_ok_iff.mp hrun
          have h₁ := hread s.2 n st₁ uris hI h hstdin
          -- The standard input is at its end.
          have hend : ∀ st n st' uris, True → HasUrisIfReplaced env.index st.index uris →
              LibSwish3.parseStdin env.toProgramEnv [] st = .ok (n, st') →
              HasUrisIfReplaced env.index st'.index fun uri => uris uri ∨ False := by
            intro st n st' uris _ h hnil
            rw [parseStdin_nil] at hnil
            cases hnil
            exact h.congr (by simp)
          refine (ih (I := fun _ => True) ⟨fun _ _ _ _ _ => trivial, fun _ _ _ _ _ => trivial⟩
            hend trivial h₁ hrun).congr fun uri => ?_
          have hmem : lit "-" ∈ [45] :: args := List.mem_cons_self
          simp only [hmem, true_and, and_false, or_false]
          grind
        · have hdash : lit "-" ≠ arg := by rintro rfl; exact hlong rfl
          refine (ih H hread hI h hrun).congr fun uri => ?_
          simp only [List.mem_cons, hdash, false_or]

/-- The parser that is used where none is known stays in the config. -/
theorem defaultParser_configInvariant :
    ConfigInvariant fun c => (c.parsers.lookup Swish.defaultParser).isSome = true where
  metaname _ _ _ h hok := by rwa [(metanameNew_files hok).parsers]
  property _ _ _ h hok := by rwa [(propertyNew_files hok).parsers]

/-- After a run that indexes and in which no replacing has thrown, what was in the index is there,
and what was to be indexed, each once. -/
theorem indexingMode_documents {self : HeadersObject} {docs : List PerlDoc}
    (hX : env.index.xapian.Documented) (h : HasUris env.index st.index uris)
    (hall : AllReplaced t.2.index) (hmode : commandLine.deleteMode = false)
    (hdefault : (st.config.parsers.lookup Swish.defaultParser).isSome)
    (hstdin : lit "-" ∈ commandLine.operands →
      WrittenByHeaders env.sax.loc self docs env.stdin)
    (hrun : indexingMode env commandLine st = .ok t) :
    (∀ uri, uris uri ∨ ToIndex env commandLine uri ∨
        lit "-" ∈ commandLine.operands ∧ streamUrls self docs uri ↔
      ∃ n doc, env.index.xapian.document t.2.index.wdb n = some doc ∧ doc.uri = uri) ∧
    ∀ n n' doc doc', env.index.xapian.document t.2.index.wdb n = some doc →
      env.index.xapian.document t.2.index.wdb n' = some doc' → doc.uri = doc'.uri → n = n' := by
  obtain ⟨s, hoperands, hlines⟩ := indexingMode_ok hrun
  rw [mainFile_of_index hmode] at hlines
  have hstart : HasUrisIfReplaced env.index ((0 : Nat), st).2.index uris := fun _ => h
  have hdone : HasUrisIfReplaced env.index s.2.index (fun uri => uris uri ∨
      (∃ name ∈ namesOf commandLine.operands, OperandAdds env commandLine name uri) ∨
        lit "-" ∈ commandLine.operands ∧ streamUrls self docs uri) := by
    by_cases hdash : lit "-" ∈ commandLine.operands
    · exact hstart.mainOperands hX hmode defaultParser_configInvariant
        (fun st n st' uris hI h hread => (h.parseStdin hX hI (hstdin hdash) hread).2)
        hdefault hoperands
    · rw [mainOperands_eq_run hdash, mainOperand_of_index hmode] at hoperands
      refine (hstart.run_adds (fun s name t uris h hok => h.indexOperand hX hok)
        hoperands).congr fun uri => ?_
      simp only [hdash, false_and, or_false, OperandAdds]
  have hindexed := hdone.run_adds (fun s name t uris h hok => h.countFile hX hok) hlines
  refine ((hindexed hall).congr fun uri => ?_).documents
  unfold ToIndex OperandAdds
  grind

/-- There is a tree of directories, a file list, and two documents are on the standard input. -/
def treeMain : MainEnv where
  toCrawlEnv := treeEnv
  fileContent name := if name = lit "/list" then some (lit "# one\n/a.xml\n") else none
  stdin := (⟨lit "3", 1300000000⟩ : HeadersObject).stream twoDocs
  nesting := 3

/-- The root directory, the standard input, and a file list. -/
def treeCommand : CommandLine := ⟨[lit "/", lit "-"], some (lit "/list"), false, true⟩

theorem indexingMode_documents_tree : ∃ t,
    indexingMode treeMain treeCommand greetingStart = .ok t ∧
    ∀ uri, False ∨ ToIndex treeMain treeCommand uri ∨
        lit "-" ∈ treeCommand.operands ∧ streamUrls ⟨lit "3", 1300000000⟩ twoDocs uri ↔
      ∃ n doc, plainIndexEnv.xapian.document t.2.index.wdb n = some doc ∧ doc.uri = uri := by
  -- The file list names a file that is in the tree: its document is replaced.
  have hsaid : (indexingMode treeMain treeCommand greetingStart).toOption.map
      (fun t => t.2.index.outcomes) = some (List.replicate 7 .added) := by
    decide +kernel
  obtain ⟨t, hrun, hsaid⟩ := exists_ok_of_map hsaid
  have hall : AllReplaced t.2.index := by
    rw [AllReplaced, hsaid]
    decide
  have hnew : HasUris treeMain.index greetingStart.index (fun _ => False) :=
    hasUris_created plainIndexEnv InMemory.documented false
  have hindexed := indexingMode_documents InMemory.documented hnew hall
    (rfl : treeCommand.deleteMode = false) (by decide +kernel)
    (fun _ => writtenByHeaders_twoDocs) hrun
  exact ⟨t, hrun, hindexed.1⟩

/-- After a run that deletes, what was in the index and was not named is there, and the number that
is printed is that of the documents that are gone. -/
theorem indexingMode_deletes {n : Nat} {st' : ProgramState env.index.xapian}
    (hX : env.index.xapian.Documented) (h : HasUris env.index st.index uris)
    (hmode : commandLine.deleteMode = true) (hstdin : lit "-" ∉ commandLine.operands)
    (hrun : indexingMode env commandLine st = .ok (n, st')) :
    (∀ uri, uris uri ∧ uri ∉ namesGiven env commandLine ↔
      ∃ i doc, env.index.xapian.document st'.index.wdb i = some doc ∧ doc.uri = uri) ∧
    ∃ gone : List XmlStr, gone.Nodup ∧ gone.length = n ∧
      ∀ uri, uri ∈ gone ↔ uris uri ∧ uri ∈ namesGiven env commandLine := by
  obtain ⟨s, hoperands, hlines⟩ := indexingMode_ok hrun
  rw [mainOperands_eq_run hstdin] at hoperands
  simp only [mainOperand_of_delete hmode, mainFile_of_delete hmode] at hoperands hlines
  have hall : run (deleteOne env) (0, st) (namesGiven env commandLine) = .ok (n, st') := by
    rw [namesGiven, run_append_of_ok hoperands, hlines]
  obtain ⟨huris, gone, honce, hlength, hgone⟩ :=
    run_deleteOne hX (show HasUris env.index (0, st).2.index uris from h) hall
  exact ⟨huris.documents.1, gone, honce, by simpa using hlength.symm, hgone⟩

/-- A file that the file list names is deleted. -/
def deleteCommand : CommandLine := ⟨[lit "/"], some (lit "/list"), true, false⟩

theorem indexingMode_deletes_tree : ∃ st st',
    run (indexFile treeMain.toProgramEnv) greetingStart [lit "/a.xml"] = .ok st ∧
    indexingMode treeMain deleteCommand st = .ok (1, st') ∧
    (∀ uri, (uri ∈ [lit "/a.xml"] ∧ treeMain.sax.fileExists uri = true) ∧
        uri ∉ namesGiven treeMain deleteCommand ↔
      ∃ i doc, plainIndexEnv.xapian.document st'.index.wdb i = some doc ∧ doc.uri = uri) ∧
    ∃ gone : List XmlStr, gone.Nodup ∧ gone.length = 1 ∧
      ∀ uri, uri ∈ gone ↔ (uri ∈ [lit "/a.xml"] ∧ treeMain.sax.fileExists uri = true) ∧
        uri ∈ namesGiven treeMain deleteCommand := by
  have hok : (run (indexFile treeMain.toProgramEnv) greetingStart [lit "/a.xml"] >>=
      indexingMode treeMain deleteCommand).toOption.map Prod.fst = some 1 := by
    decide +kernel
  obtain ⟨⟨n, st'⟩, hruns, rfl⟩ := exists_ok_of_map hok
  obtain ⟨st, hindexed, hdeleted⟩ := bind_ok_iff.mp hruns
  have huris := documents_of_run InMemory.documented (.inl (by decide)) hindexed
  exact ⟨st, st', hindexed, hdeleted,
    indexingMode_deletes InMemory.documented huris rfl (by decide) hdeleted⟩

end Names

end LibSwish3
