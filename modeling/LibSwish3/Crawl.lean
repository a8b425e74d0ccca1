import LibSwish3.IndexFiles
import LibSwish3.Lib.Walks
import LibSwish3.MessageHead

/-!
# Directories

`swish_parse_directory` goes through a directory and at once through each directory in it.  It
leaves out what begins with a dot, and links unless it was told to follow them; then it follows
the ones to directories only.  A build without `lstat` knows no links and follows them all.

The files that it parses are described without it, by `Crawled`, and it parses each of them once.
In a new index they are the documents.

## Main definitions

* `FileSystem` — what `stat`, `lstat` and `readdir` say.
* `parseDirectory` — `swish_parse_directory`.
* `Crawled` — the files that are parsed for a directory.
* `parseDirectory_files`, `crawl_documents`.
-/

namespace LibSwish3

open Records Relation Runs Walks

/-! ## The file system -/

/-- The names in a directory. -/
structure DirNames where
  names : List XmlStr
  nodup : names.Nodup
  plain : ∀ name ∈ names, name ≠ [] ∧ pathSep ∉ name

/-- A mode is none where the call fails, and `lstat` is none in a build that lacks it. -/
structure FileSystem where
  stat : XmlStr → Option Nat
  lstat : Option (XmlStr → Option Nat)
  readdir : XmlStr → Option DirNames

def sIfmt : Nat := 0o170000
def sIfdir : Nat := 0o040000
def sIfreg : Nat := 0o100000
def sIflnk : Nat := 0o120000

section FileSystem

variable (fs : FileSystem)

/-- `swish_fs_is_dir`. -/
def fsIsDir (path : XmlStr) : Bool :=
  match fs.stat path with
  | none => false
  | some mode => mode &&& sIfmt == sIfdir

/-- `swish_fs_is_file`. -/
def fsIsFile (path : XmlStr) : Bool :=
  match fs.stat path with
  | none => false
  | some mode => mode &&& sIfmt == sIfreg

/-- `swish_fs_is_link`. -/
def fsIsLink (path : XmlStr) : Bool :=
  match fs.lstat with
  | none => false
  | some lstat =>
    match lstat path with
    | none => false
    | some mode => mode &&& sIflnk == sIflnk

/-! ## The loop over the entries -/

/-- What the loop keeps; `app` is what parsing changes. -/
structure DirLoop (σ : Type) where
  pathbuflen : Nat
  /-- `unsigned int files_parsed`, which wraps. -/
  filesParsed : UInt32
  app : σ

/-- The full path, and the length of the buffer it is written to, which has one byte more. -/
def buildPath (dir : XmlStr) (pathbuflen : Nat) (name : XmlStr) : Swish (Nat × XmlStr) :=
  let dirLen := if dir = [pathSep] then 0 else dir.length
  let pathbuflen :=
    if dirLen + name.length + 1 > pathbuflen then dirLen + name.length + 256 else pathbuflen
  -- The NUL goes behind the name.
  if dirLen + name.length + 1 < pathbuflen + 1 then
    .ok (pathbuflen, dir.take dirLen ++ pathSep :: name)
  else .error (.fault .outOfBounds)

variable {σ : Type} (parseFile : σ → XmlStr → Except Stop (Int × σ)) (followSymlinks : Bool)

def unknownFile (path : XmlStr) : Stop :=
  .library (.croak (lit "Unknown file in directory: " ++ path))

/-- One entry of a directory, behind the dot files. -/
def dirPath (recurse : σ → XmlStr → Except Stop (UInt32 × σ)) (st : DirLoop σ) (path : XmlStr) :
    Except Stop (DirLoop σ) :=
  if !followSymlinks && fsIsLink fs path then .ok st
  else if fsIsDir fs path then do
    let (files, app) ← recurse st.app path
    .ok { st with filesParsed := st.filesParsed + files, app }
  else if fsIsLink fs path && followSymlinks then .ok st
  else if fsIsFile fs path then do
    let (res, app) ← parseFile st.app path
    .ok { st with filesParsed := if res = 0 then st.filesParsed + 1 else st.filesParsed, app }
  else .error (unknownFile path)

/-- One entry of a directory. -/
def dirEntry (recurse : σ → XmlStr → Except Stop (UInt32 × σ)) (dir : XmlStr) (st : DirLoop σ)
    (name : XmlStr) : Except Stop (DirLoop σ) :=
  if name.head? = some extCh then .ok st
  else do
    let (pathbuflen, path) ← (buildPath dir st.pathbuflen name).mapError .library
    dirPath fs parseFile followSymlinks recurse { st with pathbuflen } path

/-- `swish_parse_directory`, where directories are nested no deeper than `fuel`. -/
def parseDirectory : (fuel : Nat) → σ → XmlStr → Except Stop (UInt32 × σ)
  | 0, _, _ => .error (.library .outOfFuel)
  | fuel + 1, app, dir =>
    match fs.readdir dir with
    | none => .ok (0, app)
    | some entries => do
      let st ← run (dirEntry fs parseFile followSymlinks (parseDirectory fuel) dir)
        ⟨maxStrLen, 0, app⟩ entries.names
      .ok (st.filesParsed, st.app)

/-! ## What is parsed -/

/-- The path of an entry. -/
def childPath (dir name : XmlStr) : XmlStr :=
  (if dir = [pathSep] then [] else dir) ++ pathSep :: name

/-- The paths of the entries that are looked at. -/
def entriesOf (dir : XmlStr) : List XmlStr :=
  match fs.readdir dir with
  | none => []
  | some entries => (entries.names.filter (·.head? ≠ some extCh)).map (childPath dir)

/-- `path` stands for an entry of `dir` that is looked at. -/
def Entry (dir path : XmlStr) : Prop :=
  ∃ entries name, fs.readdir dir = some entries ∧ name ∈ entries.names ∧
    name.head? ≠ some extCh ∧ path = childPath dir name

/-- `path` is a directory in `dir` into which the program goes. -/
def Subdirectory (path dir : XmlStr) : Prop :=
  Entry fs dir path ∧ fsIsDir fs path = true ∧ (followSymlinks = true ∨ fsIsLink fs path = false)

/-- The files that are parsed for `dir`: those in it, and in the directories below it. -/
def Crawled (dir path : XmlStr) : Prop :=
  ∃ d, ReflTransGen (fun a b => Subdirectory fs followSymlinks b a) dir d ∧ Entry fs d path ∧
    fsIsFile fs path = true ∧ fsIsLink fs path = false

/-- What the program finds at a path. -/
def lookAt (path : XmlStr) : Found XmlStr :=
  if !followSymlinks && fsIsLink fs path then .ignored
  else if fsIsDir fs path then .inner (entriesOf fs path)
  else if fsIsLink fs path && followSymlinks then .ignored
  else if fsIsFile fs path then .leaf
  else .lost

/-- Parsing a file, and counting it if that succeeds; a directory counts in an `unsigned int`, the
program in a `long int`. -/
def countFile {ν : Type} [Add ν] [OfNat ν 1] (st : ν × σ) (path : XmlStr) :
    Except Stop (ν × σ) := do
  let (res, app) ← parseFile st.2 path
  .ok (if res = 0 then st.1 + 1 else st.1, app)

end FileSystem

/-! ## The loop is a walk -/

section Loop

variable {fs : FileSystem} {σ : Type} {parseFile : σ → XmlStr → Except Stop (Int × σ)}
  {followSymlinks : Bool} {recurse : σ → XmlStr → Except Stop (UInt32 × σ)}
  {inside : UInt32 × σ → List XmlStr → Except Stop (UInt32 × σ)} {dir path name : XmlStr}

/-- The part of the loop's state that lasts. -/
def DirLoop.result (st : DirLoop σ) : UInt32 × σ := (st.filesParsed, st.app)

/-- More files have been parsed before. -/
def after (n : UInt32) (st : UInt32 × σ) : UInt32 × σ := (n + st.1, st.2)

/-- The buffer has room for the path, which is that of the entry. -/
theorem buildPath_ok (dir : XmlStr) (pathbuflen : Nat) (name : XmlStr) :
    ∃ pathbuflen', buildPath dir pathbuflen name = .ok (pathbuflen', childPath dir name) := by
  have htake : dir.take (if dir = [pathSep] then 0 else dir.length) =
      if dir = [pathSep] then [] else dir := by
    split <;> simp
  simp only [buildPath, childPath, ← htake]
  generalize (if dir = [pathSep] then 0 else dir.length) = dirLen
  split_ifs with hlen hroom hroom
  · exact ⟨_, rfl⟩
  · omega
  · exact ⟨_, rfl⟩
  · omega

theorem countFile_after (n : UInt32) (st : UInt32 × σ) (path : XmlStr) :
    countFile parseFile (after n st) path = (countFile parseFile st path).map (after n) := by
  simp only [countFile, after]
  cases parseFile st.2 path with
  | error e => rfl
  | ok r => by_cases hres : r.1 = 0 <;> simp [hres, Except.map, after, UInt32.add_assoc]

theorem dirPath_result (parseFile : σ → XmlStr → Except Stop (Int × σ)) (followSymlinks : Bool)
    (st : DirLoop σ)
    (hrecurse : ∀ app, recurse app path = inside (0, app) (entriesOf fs path))
    (hafter : ∀ n st below, inside (after n st) below = (inside st below).map (after n)) :
    (dirPath fs parseFile followSymlinks recurse st path).map DirLoop.result =
      enter (lookAt fs followSymlinks) (countFile parseFile) unknownFile inside st.result path := by
  simp only [dirPath, enter, lookAt]
  split_ifs
  · rfl
  · have hstart : st.result = after st.filesParsed (0, st.app) := by
      rw [after, UInt32.add_zero, DirLoop.result]
    simp only [hrecurse, hstart, hafter]
    cases inside (0, st.app) (entriesOf fs path) <;> rfl
  · rfl
  · simp only [countFile, DirLoop.result]
    cases parseFile st.app path <;> rfl
  · rfl

theorem loop_result (names : List XmlStr) (st : DirLoop σ)
    (hrecurse : ∀ app path, recurse app path = inside (0, app) (entriesOf fs path))
    (hafter : ∀ n st below, inside (after n st) below = (inside st below).map (after n)) :
    (run (dirEntry fs parseFile followSymlinks recurse dir) st names).map DirLoop.result =
      run (enter (lookAt fs followSymlinks) (countFile parseFile) unknownFile inside) st.result
        ((names.filter (·.head? ≠ some extCh)).map (childPath dir)) := by
  induction names generalizing st with
  | nil => rfl
  | cons name names ih =>
      rw [run_cons_eq_bind]
      by_cases hdot : name.head? = some extCh
      · rw [List.filter_cons_of_neg (by simpa using hdot), ← ih st]
        simp only [dirEntry, if_pos hdot, ok_bind]
      · obtain ⟨pathbuflen, hpath⟩ := buildPath_ok dir st.pathbuflen name
        have hresult := dirPath_result parseFile followSymlinks { st with pathbuflen }
          (fun app => hrecurse app (childPath dir name)) hafter
        rw [List.filter_cons_of_pos (by simpa using hdot), List.map_cons, run_cons_eq_bind,
          show st.result = DirLoop.result { st with pathbuflen } from rfl, ← hresult]
        simp only [dirEntry, if_neg hdot, hpath, Except.mapError, ok_bind]
        cases dirPath fs parseFile followSymlinks recurse { st with pathbuflen }
            (childPath dir name) with
        | ok t => exact ih t
        | error e => rfl

theorem parseDirectory_of_loop {fuel : Nat} {app : σ}
    (hrecurse : ∀ app path, parseDirectory fs parseFile followSymlinks fuel app path =
      inside (0, app) (entriesOf fs path))
    (hafter : ∀ n st below, inside (after n st) below = (inside st below).map (after n)) :
    parseDirectory fs parseFile followSymlinks (fuel + 1) app dir =
      run (enter (lookAt fs followSymlinks) (countFile parseFile) unknownFile inside) (0, app)
        (entriesOf fs dir) := by
  simp only [parseDirectory, entriesOf]
  cases fs.readdir dir with
  | none => rfl
  | some entries =>
      refine Eq.trans ?_ (loop_result entries.names ⟨maxStrLen, 0, app⟩ hrecurse hafter)
      dsimp only
      cases run (dirEntry fs parseFile followSymlinks
        (parseDirectory fs parseFile followSymlinks fuel) dir) ⟨maxStrLen, 0, app⟩
        entries.names <;> rfl

/-- The program walks through the entries. -/
theorem parseDirectory_eq_visit (fuel : Nat) (app : σ) (dir : XmlStr) :
    parseDirectory fs parseFile followSymlinks (fuel + 1) app dir =
      run (visit (lookAt fs followSymlinks) (countFile parseFile) unknownFile
        (.library .outOfFuel) fuel) (0, app) (entriesOf fs dir) := by
  induction fuel generalizing app dir with
  | zero =>
      exact parseDirectory_of_loop (fun _ _ => rfl) (fun _ _ _ => rfl)
  | succ fuel ih =>
      exact parseDirectory_of_loop ih fun n st below => run_map
        (fun st path => visit_map (fun st path => countFile_after n st path) fuel st path) st below

end Loop

/-! ## Which files they are -/

section Files

variable {fs : FileSystem} {followSymlinks : Bool} {dir path p q : XmlStr} {files : List XmlStr}
  {lost : Option XmlStr}

theorem fsIsDir_of_fsIsFile (h : fsIsFile fs path = true) : fsIsDir fs path = false := by
  unfold fsIsFile at h
  unfold fsIsDir
  cases hstat : fs.stat path with
  | none => rfl
  | some mode =>
      simp only [hstat, beq_iff_eq] at h
      simp only [h]
      rfl

theorem lookAt_leaf_iff : lookAt fs followSymlinks path = .leaf ↔
    fsIsFile fs path = true ∧ fsIsLink fs path = false := by
  unfold lookAt
  cases hlink : fsIsLink fs path <;> cases followSymlinks <;> cases hdir : fsIsDir fs path <;>
    cases hfile : fsIsFile fs path <;> simp
  all_goals simp [fsIsDir_of_fsIsFile hfile] at hdir

theorem lookAt_inner_iff {below : List XmlStr} : lookAt fs followSymlinks path = .inner below ↔
    fsIsDir fs path = true ∧ (followSymlinks = true ∨ fsIsLink fs path = false) ∧
      entriesOf fs path = below := by
  unfold lookAt
  cases fsIsLink fs path <;> cases followSymlinks <;> cases fsIsDir fs path <;>
    cases fsIsFile fs path <;> simp

theorem lookAt_lost (h : lookAt fs followSymlinks path = .lost) :
    fsIsDir fs path = false ∧ fsIsFile fs path = false ∧ fsIsLink fs path = false := by
  unfold lookAt at h
  cases hlink : fsIsLink fs path <;> cases followSymlinks <;> cases hdir : fsIsDir fs path <;>
    cases hfile : fsIsFile fs path <;> simp_all

theorem mem_entriesOf_iff : path ∈ entriesOf fs dir ↔ Entry fs dir path := by
  unfold entriesOf Entry
  cases fs.readdir dir with
  | none => simp
  | some entries =>
      simp only [List.mem_map, List.mem_filter, decide_eq_true_eq, Option.some.injEq]
      constructor
      · rintro ⟨name, ⟨hname, hdot⟩, rfl⟩
        exact ⟨entries, name, rfl, hname, hdot, rfl⟩
      · rintro ⟨entries', name, rfl, hname, hdot, rfl⟩
        exact ⟨name, ⟨hname, hdot⟩, rfl⟩

theorem below_iff : Below (lookAt fs followSymlinks) q p ↔
    fsIsDir fs p = true ∧ (followSymlinks = true ∨ fsIsLink fs p = false) ∧ Entry fs p q := by
  simp only [Below, lookAt_inner_iff, ← mem_entriesOf_iff]
  constructor
  · rintro ⟨below, ⟨hdir, hlink, rfl⟩, hq⟩
    exact ⟨hdir, hlink, hq⟩
  · rintro ⟨hdir, hlink, hq⟩
    exact ⟨_, ⟨hdir, hlink, rfl⟩, hq⟩

/-- What the walk comes to is an entry of one of the directories that are read. -/
theorem beneath_iff : Beneath (lookAt fs followSymlinks) (entriesOf fs dir) path ↔
    ∃ d, ReflTransGen (fun a b => Subdirectory fs followSymlinks b a) dir d ∧ Entry fs d path := by
  constructor
  · rintro ⟨p, hp, hreach⟩
    induction hreach with
    | refl => exact ⟨dir, .refl, mem_entriesOf_iff.mp hp⟩
    | @tail b c _ hbelow ih =>
        obtain ⟨d, hd, hentry⟩ := ih
        obtain ⟨hdir, hlink, hc⟩ := below_iff.mp hbelow
        exact ⟨b, hd.tail ⟨hentry, hdir, hlink⟩, hc⟩
  · rintro ⟨d, hd, hentry⟩
    induction hd generalizing path with
    | refl => exact .of_mem (mem_entriesOf_iff.mpr hentry)
    | tail _ hsub ih =>
        obtain ⟨hinside, hdir, hlink⟩ := hsub
        exact (ih hinside).below (below_iff.mpr ⟨hdir, hlink, hentry⟩)

theorem crawled_iff : Crawled fs followSymlinks dir path ↔
    Beneath (lookAt fs followSymlinks) (entriesOf fs dir) path ∧
      lookAt fs followSymlinks path = .leaf := by
  rw [beneath_iff, lookAt_leaf_iff]
  constructor
  · rintro ⟨d, hd, hentry, hfile⟩
    exact ⟨⟨d, hd, hentry⟩, hfile⟩
  · rintro ⟨⟨d, hd, hentry⟩, hfile⟩
    exact ⟨d, hd, hentry, hfile⟩

/-- Where directories are not nested for ever, the walk ends. -/
theorem acc_below (h : Acc (Subdirectory fs followSymlinks) dir) :
    ∀ p ∈ entriesOf fs dir, Acc (Below (lookAt fs followSymlinks)) p := by
  induction h with
  | intro dir _ ih =>
      intro p hp
      refine .intro p fun q hq => ?_
      obtain ⟨hdir, hlink, hentry⟩ := below_iff.mp hq
      exact ih p ⟨mem_entriesOf_iff.mp hp, hdir, hlink⟩ q (mem_entriesOf_iff.mpr hentry)

theorem length_lt_childPath {name : XmlStr} (hname : name ≠ []) :
    dir.length < (childPath dir name).length := by
  have hpos : 0 < name.length := List.length_pos_iff.mpr hname
  unfold childPath
  split_ifs with hroot
  · rw [hroot]
    simpa using hpos
  · simp

/-- Directories whose paths have a bounded length are not nested for ever. -/
theorem acc_subdirectory {n : Nat} (hbound : ∀ path, fsIsDir fs path = true → path.length ≤ n)
    (dir : XmlStr) : Acc (Subdirectory fs followSymlinks) dir := by
  induction hroom : n - dir.length using Nat.strong_induction_on generalizing dir with
  | _ room ih =>
      refine .intro dir fun path hsub => ih (n - path.length) ?_ path rfl
      obtain ⟨⟨entries, name, -, hname, -, rfl⟩, hdir, -⟩ := hsub
      have hlonger : dir.length < (childPath dir name).length :=
        length_lt_childPath (entries.plain name hname).1
      have hle := hbound _ hdir
      omega

/-! ## No file is parsed twice -/

/-- The path with a separator behind it. -/
def address (path : XmlStr) : XmlStr := (if path = [pathSep] then [] else path) ++ [pathSep]

theorem address_childPath {name : XmlStr} (hname : name ≠ []) :
    address (childPath dir name) = address dir ++ name ++ [pathSep] := by
  have hchild : childPath dir name ≠ [pathSep] := by
    intro h
    have hlength : (childPath dir name).length = 1 := by rw [h]; rfl
    have hpos : 0 < name.length := List.length_pos_iff.mpr hname
    simp only [childPath, List.length_append, List.length_cons] at hlength
    omega
  rw [address, if_neg hchild]
  simp [childPath, address]

/-- Names without a separator in them come apart. -/
theorem eq_of_prefix_sep {a b : XmlStr} (ha : pathSep ∉ a) (hb : pathSep ∉ b)
    (h : a ++ [pathSep] <+: b ++ [pathSep]) : a = b := by
  obtain ⟨rest, hrest⟩ := h
  have htake : ∀ s tail : XmlStr, pathSep ∉ s →
      (s ++ pathSep :: tail).takeWhile (· ≠ pathSep) = s := by
    intro s tail hs
    rw [List.takeWhile_append_of_pos fun c hc => by simpa using ne_of_mem_of_not_mem hc hs]
    simp
  rw [← htake a rest ha, ← htake b [] hb, ← hrest]
  simp

theorem apart_childPath {a b : XmlStr} (ha : a ≠ [] ∧ pathSep ∉ a) (hb : b ≠ [] ∧ pathSep ∉ b)
    (hab : a ≠ b) : Apart address (childPath dir a) (childPath dir b) := by
  rw [Apart, address_childPath ha.1, address_childPath hb.1, List.append_assoc, List.append_assoc,
    List.prefix_append_right_inj, List.prefix_append_right_inj]
  exact ⟨fun h => hab (eq_of_prefix_sep ha.2 hb.2 h),
    fun h => hab (eq_of_prefix_sep hb.2 ha.2 h).symm⟩

theorem entriesOf_apart (fs : FileSystem) (dir : XmlStr) :
    (∀ q ∈ entriesOf fs dir, address dir <+: address q) ∧
      (entriesOf fs dir).Pairwise (Apart address) := by
  unfold entriesOf
  cases fs.readdir dir with
  | none => simp
  | some entries =>
      refine ⟨fun q hq => ?_, ?_⟩
      · obtain ⟨name, hname, rfl⟩ := List.mem_map.mp hq
        rw [address_childPath (entries.plain name (List.mem_of_mem_filter hname)).1,
          List.append_assoc]
        exact List.prefix_append _ _
      · rw [List.pairwise_map]
        refine (entries.nodup.filter _).imp_of_mem fun ha hb hab => ?_
        exact apart_childPath (entries.plain _ (List.mem_of_mem_filter ha))
          (entries.plain _ (List.mem_of_mem_filter hb)) hab

theorem addressed_lookAt (fs : FileSystem) (followSymlinks : Bool) :
    Addressed (lookAt fs followSymlinks) address := by
  intro p below hlook
  obtain ⟨-, -, rfl⟩ := lookAt_inner_iff.mp hlook
  exact entriesOf_apart fs p

/-- The files that are parsed for a directory, and the path at which the program stops, if it
does. -/
structure DirectoryFiles (fs : FileSystem) (followSymlinks : Bool) (dir : XmlStr)
    (files : List XmlStr) (lost : Option XmlStr) : Prop where
  once : files.Nodup
  crawled : ∀ path ∈ files, Crawled fs followSymlinks dir path
  all : lost = none → ∀ path, Crawled fs followSymlinks dir path → path ∈ files
  unknown : ∀ path, lost = some path →
    fsIsDir fs path = false ∧ fsIsFile fs path = false ∧ fsIsLink fs path = false

theorem directoryFiles_of_walk
    (h : Walk (lookAt fs followSymlinks) (entriesOf fs dir) files lost) :
    DirectoryFiles fs followSymlinks dir files lost where
  once := (h.nodup (addressed_lookAt fs followSymlinks) (entriesOf_apart fs dir).2).of_map
  crawled path hpath := crawled_iff.mpr (h.beneath path hpath)
  all hlost path hpath := by
    subst hlost
    exact h.mem_iff.mpr (crawled_iff.mp hpath)
  unknown path hpath := by
    subst hpath
    exact lookAt_lost h.lost_beneath.2

/-- For a directory the program parses the files that are to be parsed, each of them once, in the
order of the walk, and counts in 32 bits; it stops at a path that is neither a directory nor a file
nor a link. -/
theorem parseDirectory_files {σ : Type} (parseFile : σ → XmlStr → Except Stop (Int × σ))
    (hends : Acc (Subdirectory fs followSymlinks) dir) :
    ∃ files lost depth, Walk (lookAt fs followSymlinks) (entriesOf fs dir) files lost ∧
      DirectoryFiles fs followSymlinks dir files lost ∧
      ∀ fuel app, depth ≤ fuel → parseDirectory fs parseFile followSymlinks fuel app dir =
        (run (countFile parseFile) (0, app) files >>= finish unknownFile lost) := by
  obtain ⟨files, lost, hwalk⟩ := exists_walk (acc_below hends)
  obtain ⟨depth, hvisit⟩ := hwalk.visit_eq (countFile parseFile : UInt32 × σ → _) unknownFile
    (.library .outOfFuel)
  refine ⟨files, lost, depth + 1, hwalk, directoryFiles_of_walk hwalk, ?_⟩
  intro fuel app hfuel
  obtain ⟨fuel, rfl⟩ := Nat.exists_eq_add_of_le' (Nat.le_of_add_left_le hfuel)
  rw [parseDirectory_eq_visit, hvisit fuel (Nat.le_of_succ_le_succ hfuel)]

/-- A build without `lstat` follows links, whatever it is told. -/
theorem parseDirectory_noLstat {σ : Type} (parseFile : σ → XmlStr → Except Stop (Int × σ))
    (hlstat : fs.lstat = none) (fuel : Nat) (app : σ) :
    parseDirectory fs parseFile true fuel app dir =
      parseDirectory fs parseFile false fuel app dir := by
  have hlook : lookAt fs true = lookAt fs false := by
    funext path
    have hlink : fsIsLink fs path = false := by simp only [fsIsLink, hlstat]
    simp only [lookAt, hlink, Bool.and_false, Bool.false_and]
  cases fuel with
  | zero => rfl
  | succ fuel => rw [parseDirectory_eq_visit, parseDirectory_eq_visit, hlook]

end Files

def treeDirs : List XmlStr := [lit "/", lit "/d", lit "/d/e", lit "/d/up"]

def treeFiles : List XmlStr :=
  [lit "/a.xml", lit "/again.xml", lit "/d/b.xml", lit "/d/e/c.xml", lit "/d/up/c.xml"]

def treeRoot : List XmlStr := [lit ".git", lit "a.xml", lit "again.xml", lit "d"]

def treeMiddle : List XmlStr := [lit "up", lit "b.xml", lit "e"]

def treeLeaf : List XmlStr := [lit "c.xml"]

theorem treeRoot_nodup : treeRoot.Nodup := by decide

theorem treeRoot_plain : ∀ name ∈ treeRoot, name ≠ [] ∧ pathSep ∉ name := by decide

theorem treeMiddle_nodup : treeMiddle.Nodup := by decide

theorem treeMiddle_plain : ∀ name ∈ treeMiddle, name ≠ [] ∧ pathSep ∉ name := by decide

theorem treeLeaf_nodup : treeLeaf.Nodup := by decide

theorem treeLeaf_plain : ∀ name ∈ treeLeaf, name ≠ [] ∧ pathSep ∉ name := by decide

/-- Directories in directories, with a link to a file and a link to a directory. -/
def treeFs : FileSystem where
  stat path :=
    if treeDirs.contains path then some 0o40755 else if treeFiles.contains path then some 0o100644 else none
  lstat := some fun path =>
    if path = lit "/again.xml" ∨ path = lit "/d/up" then some 0o120777
    else if treeDirs.contains path then some 0o40755
    else if treeFiles.contains path then some 0o100644
    else none
  readdir dir :=
    if dir = lit "/" then some ⟨treeRoot, treeRoot_nodup, treeRoot_plain⟩
    else if dir = lit "/d" then some ⟨treeMiddle, treeMiddle_nodup, treeMiddle_plain⟩
    else if dir = lit "/d/e" ∨ dir = lit "/d/up" then
      some ⟨treeLeaf, treeLeaf_nodup, treeLeaf_plain⟩
    else none

/-- The paths that it is given, of which one cannot be parsed. -/
def parseAll (paths : List XmlStr) (path : XmlStr) : Except Stop (Int × List XmlStr) :=
  .ok (if path = lit "/d/b.xml" then 1 else 0, paths ++ [path])

theorem treeFs_acc (followSymlinks : Bool) (dir : XmlStr) :
    Acc (Subdirectory treeFs followSymlinks) dir := by
  refine acc_subdirectory (n := 5) (fun path hdir => ?_) dir
  have hdirs : path ∈ treeDirs := by
    by_contra hpath
    have hno : ¬treeDirs.contains path = true := by simpa using hpath
    simp only [fsIsDir, treeFs, if_neg hno] at hdir
    split_ifs at hdir
    simp [sIfmt, sIfdir] at hdir
  exact (by decide : ∀ path ∈ treeDirs, path.length ≤ 5) path hdirs

theorem parseDirectory_files_tree :
    (∃ files lost depth,
      Walk (lookAt treeFs true) (entriesOf treeFs (lit "/")) files lost ∧
        DirectoryFiles treeFs true (lit "/") files lost ∧
        ∀ fuel app, depth ≤ fuel → parseDirectory treeFs parseAll true fuel app (lit "/") =
          (run (countFile parseAll) (0, app) files >>= finish unknownFile lost)) ∧
    parseDirectory treeFs parseAll true 3 [] (lit "/") =
      .ok (3, [lit "/a.xml", lit "/d/up/c.xml", lit "/d/b.xml", lit "/d/e/c.xml"]) ∧
    parseDirectory treeFs parseAll false 3 [] (lit "/") =
      .ok (2, [lit "/a.xml", lit "/d/b.xml", lit "/d/e/c.xml"]) :=
  ⟨parseDirectory_files parseAll (treeFs_acc true (lit "/")), by decide +kernel, by decide +kernel⟩

/-! ## A directory in a new index -/

/-- What a run over a directory asks of its surroundings: both sides ask `stat`. -/
structure CrawlEnv extends ProgramEnv where
  fs : FileSystem
  /-- What `docparser` returns. -/
  parseResult : ParserData → Int
  fileExists_eq : ∀ path, sax.fileExists path = (fs.stat path).isSome

def errNoSuchFile : Int := 1

/-- `swish_parse_file`, with what it returns. -/
def parseFile (env : CrawlEnv) (st : ProgramState env.index.xapian) (filename : XmlStr) :
    Except Stop (Int × ProgramState env.index.xapian) := do
  match ← (parsedFile env.toProgramEnv st.config filename).mapError .library with
  | none => pure (errNoSuchFile, st)
  | some parsed => do
    let index ← handler env.index st.index parsed
    pure (env.parseResult parsed.data, ⟨index, parsed.data.config⟩)

section CrawledIndex

variable {env : CrawlEnv} {st st' : ProgramState env.index.xapian} {filename dir : XmlStr}
  {files : List XmlStr} {config : Config} {followSymlinks : Bool} {uris : XmlStr → Prop}

theorem indexFile_of_parseFile {res : Int} (h : parseFile env st filename = .ok (res, st')) :
    indexFile env.toProgramEnv st filename = .ok st' := by
  obtain ⟨found, hfound, h⟩ := bind_ok_iff.mp h
  refine bind_ok_iff.mpr ⟨found, hfound, ?_⟩
  cases found with
  | none => cases h; rfl
  | some parsed =>
      obtain ⟨index, hindex, h⟩ := bind_ok_iff.mp h
      cases h
      exact bind_ok_iff.mpr ⟨index, hindex, rfl⟩

theorem run_indexFile_of_count {ν : Type} [Add ν] [OfNat ν 1] {n n' : ν}
    (h : run (countFile (parseFile env)) (n, st) files = .ok (n', st')) :
    run (indexFile env.toProgramEnv) st files = .ok st' := by
  induction files generalizing n st with
  | nil => cases h; rfl
  | cons filename files ih =>
      obtain ⟨⟨k, st₁⟩, hstep, h⟩ := run_cons_ok_iff.mp h
      obtain ⟨⟨res, st₂⟩, hparse, hcount⟩ := bind_ok_iff.mp hstep
      cases hcount
      rw [run_cons_of_ok (indexFile_of_parseFile hparse)]
      exact ih h

/-- What is a file can be parsed. -/
theorem fileExists_of_fsIsFile {path : XmlStr} (h : fsIsFile env.fs path = true) :
    env.sax.fileExists path = true := by
  rw [env.fileExists_eq]
  unfold fsIsFile at h
  cases hstat : env.fs.stat path with
  | none => rw [hstat] at h; cases h
  | some mode => rfl

/-- Going through a directory is a run over its files. -/
theorem run_of_parseDirectory {fuel : Nat} {n : UInt32}
    (hrun : parseDirectory env.fs (parseFile env) followSymlinks fuel st dir = .ok (n, st')) :
    ∃ files, DirectoryFiles env.fs followSymlinks dir files none ∧
      run (indexFile env.toProgramEnv) st files = .ok st' := by
  cases fuel with
  | zero => cases hrun
  | succ fuel =>
      rw [parseDirectory_eq_visit] at hrun
      obtain ⟨files, hwalk, hrun⟩ := walk_of_visit hrun
      exact ⟨files, directoryFiles_of_walk hwalk, run_indexFile_of_count hrun⟩

/-- After a run over a directory its files have documents too. -/
theorem HasUris.parseDirectory {fuel : Nat} {n : UInt32}
    (hX : env.index.xapian.Documented) (h : HasUris env.index st.index uris)
    (hagain : (∀ path, Crawled env.fs followSymlinks dir path → ¬uris path) ∨
      AllReplaced st'.index)
    (hrun : LibSwish3.parseDirectory env.fs (parseFile env) followSymlinks fuel st dir =
      .ok (n, st')) :
    HasUris env.index st'.index
      (fun uri => uris uri ∨ Crawled env.fs followSymlinks dir uri) := by
  obtain ⟨files, hfiles, hrun⟩ := run_of_parseDirectory hrun
  have hnew : (files.Nodup ∧ ∀ path ∈ files, ¬uris path) ∨ AllReplaced st'.index :=
    hagain.imp_left fun hnew =>
      ⟨hfiles.once, fun path hpath => hnew path (hfiles.crawled path hpath)⟩
  refine (h.run hX hnew hrun).congr fun uri => ?_
  refine or_congr_right ⟨fun huri => hfiles.crawled uri huri.1, fun hcrawled => ?_⟩
  have hmem := hfiles.all rfl uri hcrawled
  obtain ⟨d, -, -, hfile, -⟩ := hcrawled
  exact ⟨hmem, fileExists_of_fsIsFile hfile⟩

theorem HasUrisIfReplaced.parseDirectory {fuel : Nat} {n : UInt32}
    (hX : env.index.xapian.Documented) (h : HasUrisIfReplaced env.index st.index uris)
    (hrun : LibSwish3.parseDirectory env.fs (parseFile env) followSymlinks fuel st dir =
      .ok (n, st')) :
    HasUrisIfReplaced env.index st'.index
      (fun uri => uris uri ∨ Crawled env.fs followSymlinks dir uri) := by
  intro hall
  obtain ⟨files, -, hfiles⟩ := run_of_parseDirectory hrun
  exact (h (hall.of_run hfiles)).parseDirectory hX (.inr hall) hrun

/-- A run over a directory that makes a new index leaves one document there for each file that is
to be parsed, and no other. -/
theorem crawl_documents {fuel : Nat} {n : UInt32} {skipDuplicates : Bool}
    (hX : env.index.xapian.Documented)
    (hrun : parseDirectory env.fs (parseFile env) followSymlinks fuel
      ⟨openWriteableIndex env.index.xapian true skipDuplicates env.index.xapian.created, config⟩
      dir = .ok (n, st')) :
    (∀ filename, Crawled env.fs followSymlinks dir filename ↔
      ∃ i doc, env.index.xapian.document st'.index.wdb i = some doc ∧ doc.uri = filename) ∧
    ∀ i i' doc doc', env.index.xapian.document st'.index.wdb i = some doc →
      env.index.xapian.document st'.index.wdb i' = some doc' → doc.uri = doc'.uri → i = i' := by
  have huris := (hasUris_created env.index hX skipDuplicates).parseDirectory hX
    (.inl fun _ _ => id) hrun
  exact (huris.congr fun uri => Iff.of_eq (false_or _)).documents

end CrawledIndex

/-- The events of a document with one element and its text. -/
def elementEvents (name text : XmlStr) : List SaxEvent :=
  [.startDocument, .startElementNs name none none [], .characters text, .endElementNs name none,
    .endDocument]

/-- The files of the tree, the linked ones under both their names. -/
def treeEnv : CrawlEnv where
  toProgramEnv := { greetingEnv with
    sax := { SaxEnv.ofFiles
      [(lit "/a.xml", lit "<greeting>Hello world</greeting>",
        elementEvents (lit "greeting") (lit "Hello world")),
      (lit "/d/b.xml", lit "<b>two</b>", elementEvents (lit "b") (lit "two")),
      (lit "/d/e/c.xml", lit "<c>three</c>", elementEvents (lit "c") (lit "three")),
      (lit "/d/up/c.xml", lit "<c>three</c>", elementEvents (lit "c") (lit "three"))]
    with fileExists := fun path => (treeFs.stat path).isSome } }
  fs := treeFs
  parseResult _ := 0
  fileExists_eq _ := rfl

theorem crawl_documents_tree : ∃ st',
    parseDirectory treeFs (parseFile treeEnv) true 3 greetingStart (lit "/") = .ok (4, st') ∧
    (∀ filename, Crawled treeFs true (lit "/") filename ↔
      ∃ i doc, plainIndexEnv.xapian.document st'.index.wdb i = some doc ∧ doc.uri = filename) ∧
    ∀ i i' doc doc', plainIndexEnv.xapian.document st'.index.wdb i = some doc →
      plainIndexEnv.xapian.document st'.index.wdb i' = some doc' → doc.uri = doc'.uri → i = i' := by
  have hcount : (parseDirectory treeEnv.fs (parseFile treeEnv) true 3 greetingStart
      (lit "/")).toOption.map Prod.fst = some 4 := by
    decide +kernel
  obtain ⟨⟨n, st'⟩, hcrawl, rfl⟩ := exists_ok_of_map hcount
  exact ⟨st', hcrawl, crawl_documents InMemory.documented hcrawl⟩

end LibSwish3
