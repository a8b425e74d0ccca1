import LibSwish3.HeaderRules

/-!
# Ids

Backends use the id of a MetaName as a term prefix and that of a Property as a value slot.
An id comes from an `id` attribute, from a counter that starts anew with every file, or,
for a name that a document brings up, from the largest counter seen; merging copies it.
None of these looks at the ids already in the table, so `UniqueIds` is kept by exactly the
stores whose id is free.  Seen from the files, it is kept by exactly those whose own ids are
distinct and stay clear of the ids around them: `run_uniqueIds_iff`.

## Main definitions

* `UniqueIds` — the invariant.
* `ConfigOp`, `configStep` — what happens to a config in its life.
* `idFree`, `OpFresh` — the id of every entry stored is not in use.
* `OpDistinct` — the ids of what an operation adds are distinct from those that stay.
-/

namespace LibSwish3

open Runs Tables

/-- The ids of all MetaNames are pairwise distinct, and those of all Properties. -/
structure UniqueIds (c : Config) : Prop where
  metanames : DistinctOn MetaName.id c.metanames
  properties : DistinctOn Property.id c.properties

/-- No entry of the table that `t₂` leaves in place has the id of an entry of `t₂`. -/
def DisjointIds {α : Type} (id : α → Int) (t₁ t₂ : HashTable α) : Prop :=
  ∀ k₁ k₂ a₁ a₂, k₁ ∉ t₂ → t₁.lookup k₁ = some a₁ → t₂.lookup k₂ = some a₂ → id a₁ ≠ id a₂

instance {α : Type} (id : α → Int) (t₁ t₂ : HashTable α) : Decidable (DisjointIds id t₁ t₂) :=
  decidable_of_iff (∀ e₁ ∈ t₁.entries, e₁.1 ∉ t₂ → ∀ e₂ ∈ t₂.entries, id e₁.2 ≠ id e₂.2)
    ⟨fun h k₁ k₂ a₁ a₂ hk h₁ h₂ =>
        h ⟨k₁, a₁⟩ (mem_entries_iff.mpr h₁) hk ⟨k₂, a₂⟩ (mem_entries_iff.mpr h₂),
      fun h e₁ h₁ hk e₂ h₂ =>
        h e₁.1 e₂.1 e₁.2 e₂.2 hk (mem_entries_iff.mp h₁) (mem_entries_iff.mp h₂)⟩

/-- No entry of the table has the id. -/
def IdFree {α : Type} (id : α → Int) (t : HashTable α) (v : Int) : Prop :=
  ∀ k a, t.lookup k = some a → id a ≠ v

instance {α : Type} (id : α → Int) (t : HashTable α) (v : Int) : Decidable (IdFree id t v) :=
  decidable_of_iff (∀ e ∈ t.entries, id e.2 ≠ v)
    ⟨fun h k a hk => h ⟨k, a⟩ (mem_entries_iff.mpr hk),
      fun h e he => h e.1 e.2 (mem_entries_iff.mp he)⟩

/-- A store is fine when the id of what is stored is free. -/
def idFree : StoreCond where
  metaname metanames m := IdFree MetaName.id metanames m.id
  property properties prop := IdFree Property.id properties prop.id
  merge c1 c2 := DisjointIds MetaName.id c1.metanames c2.metanames ∧
    DisjointIds Property.id c1.properties c2.properties

theorem uniqueIds_configInit : UniqueIds configInit := ⟨distinctOn_empty, distinctOn_empty⟩

theorem uniqueIds_configSetDefault (lcCtype : XmlStr) :
    UniqueIds (configSetDefault lcCtype) := by
  refine ⟨?_, ?_⟩
  · refine (distinctOn_insert_iff ?_ (by decide)).mpr (by decide : IdFree MetaName.id _ _)
    exact (distinctOn_insert_iff distinctOn_empty (by decide)).mpr
      (by decide : IdFree MetaName.id _ _)
  · refine (distinctOn_insert_iff ?_ (by decide)).mpr (by decide : IdFree Property.id _ _)
    exact (distinctOn_insert_iff distinctOn_empty (by decide)).mpr
      (by decide : IdFree Property.id _ _)

/-! ## Stores -/

/-- Merging keeps the ids distinct exactly when those of the second config are, and none of them
is one of an entry that stays. -/
theorem uniqueIds_merge_iff {c1 c2 c : Config} (h1 : UniqueIds c1)
    (hok : configMerge c1 c2 = .ok c) : UniqueIds c ↔ UniqueIds c2 ∧ idFree.merge c1 c2 := by
  obtain ⟨htables, -⟩ := configMerge_ok hok
  have hmetas : DistinctOn MetaName.id c.metanames ↔ DistinctOn MetaName.id c2.metanames ∧
      DisjointIds MetaName.id c1.metanames c2.metanames := by
    rw [htables.metanames]
    exact distinctOn_mergeWith_iff (f := copyMetaname) (fun _ _ _ => rfl) h1.metanames
  have hprops : DistinctOn Property.id c.properties ↔ DistinctOn Property.id c2.properties ∧
      DisjointIds Property.id c1.properties c2.properties := by
    rw [htables.properties]
    exact distinctOn_mergeWith_iff (f := copyProperty) (fun _ _ _ => rfl) h1.properties
  constructor
  · rintro ⟨hm, hp⟩
    exact ⟨⟨(hmetas.mp hm).1, (hprops.mp hp).1⟩, (hmetas.mp hm).2, (hprops.mp hp).2⟩
  · rintro ⟨⟨hm, hp⟩, hdm, hdp⟩
    exact ⟨hmetas.mpr ⟨hm, hdm⟩, hprops.mpr ⟨hp, hdp⟩⟩

/-- The directives do not touch the tables. -/
theorem handleSpecialMiscFlags_tables {c c' : Config} (h : handleSpecialMiscFlags c = .ok c') :
    ∃ flags, c' = { c with flags } := by
  unfold handleSpecialMiscFlags at h
  obtain ⟨_, -, h⟩ := bind_ok_iff.mp h
  obtain ⟨_, -, h⟩ := bind_ok_iff.mp h
  obtain ⟨_, -, h⟩ := bind_ok_iff.mp h
  obtain ⟨_, -, h⟩ := bind_ok_iff.mp h
  obtain ⟨_, -, h⟩ := bind_ok_iff.mp h
  exact ⟨_, (Except.ok.inj h).symm⟩

/-- Stores of free ids keep the ids distinct. -/
theorem uniqueIds_keptBy (loc : Locale) :
    KeptBy loc idFree UniqueIds (fun _ => True) (fun _ => True) where
  init := uniqueIds_configInit
  ids _ _ _ _ _ h := ⟨h.metanames, h.properties⟩
  metaname_init _ _ _ := trivial
  metaname_attr _ _ _ := ⟨trivial, trivial⟩
  metaname_alias _ _ _ _ _ := ⟨trivial, trivial⟩
  metaname_new _ _ _ _ _ := trivial
  metaname _ _ h _ hnew hfree :=
    ⟨(distinctOn_insert_iff h.metanames hnew).mpr hfree, h.properties⟩
  metaname_target _ _ _ _ h _ hlook :=
    ⟨distinctOn_insert_of_lookup h.metanames hlook rfl, h.properties⟩
  property_init _ _ _ := trivial
  property_attr _ _ _ _ _ _ _ := ⟨trivial, trivial, trivial, trivial, trivial⟩
  property_alias _ _ _ _ _ := ⟨trivial, trivial⟩
  property_new _ _ _ _ _ := trivial
  property _ _ h _ hnew hfree :=
    ⟨h.metanames, (distinctOn_insert_iff h.properties hnew).mpr hfree⟩
  value _ table _ _ h _ _ _ := by
    cases table <;> exact ⟨h.metanames, h.properties⟩
  misc _ _ _ _ h _ _ _ hok := by
    obtain ⟨flags, rfl⟩ := handleSpecialMiscFlags_tables hok
    exact ⟨h.metanames, h.properties⟩
  values _ _ _ table _ h _ _ := by
    cases table <;> exact ⟨h.metanames, h.properties⟩
  stringlist _ _ _ h := ⟨h.metanames, h.properties⟩
  merge _ _ _ h1 h2 hfree hok _ _ := (uniqueIds_merge_iff h1 hok).mpr ⟨h2, hfree⟩

/-! ## The life of a config -/

/-- What changes the names of a config: files that are merged, and names that documents
bring up. -/
inductive ConfigOp
  | headerMerge (filename : XmlStr)
  | metanameNew (name : XmlStr)
  | propertyNew (name : XmlStr)
  deriving DecidableEq, Repr

section Life

variable (env : HeaderEnv) (fuel : Nat)

def configStep (c : Config) : ConfigOp → Swish Config
  | .headerMerge filename => headerMerge env fuel filename c
  | .metanameNew name => metanameNew name c
  | .propertyNew name => propertyNew name c

/-- The ids that the operation takes are not in use at that moment. -/
def OpFresh (c : Config) : ConfigOp → Prop
  | .headerMerge filename => MergeMeets env idFree fuel filename c
  | .metanameNew _ => IdFree MetaName.id c.metanames (c.flags.maxMetaId + 1)
  | .propertyNew _ => IdFree Property.id c.properties (c.flags.maxPropId + 1)

variable {env fuel}

theorem metanameNew_ok {name : XmlStr} {c c' : Config} (h : metanameNew name c = .ok c') :
    name ∉ c.metanames ∧ ∃ flags, c' = { c with
      flags
      metanames := c.metanames.insert name
        { metanameInit name with id := c.flags.maxMetaId + 1 } } := by
  unfold metanameNew at h
  obtain ⟨metaIds, -, h⟩ := bind_ok_iff.mp h
  obtain ⟨metanames, hadd, h⟩ := bind_ok_iff.mp h
  obtain ⟨hnew, rfl⟩ := hashAdd_ok_iff.mp hadd
  exact ⟨hnew, _, (Except.ok.inj h).symm⟩

theorem propertyNew_ok {name : XmlStr} {c c' : Config} (h : propertyNew name c = .ok c') :
    name ∉ c.properties ∧ ∃ flags, c' = { c with
      flags
      properties := c.properties.insert name
        { propertyInit name with id := c.flags.maxPropId + 1 } } := by
  unfold propertyNew at h
  obtain ⟨propIds, -, h⟩ := bind_ok_iff.mp h
  obtain ⟨properties, hadd, h⟩ := bind_ok_iff.mp h
  obtain ⟨hnew, rfl⟩ := hashAdd_ok_iff.mp hadd
  exact ⟨hnew, _, (Except.ok.inj h).symm⟩

/-- One operation that takes free ids keeps the ids distinct. -/
theorem configStep_uniqueIds {c c' : Config} {op : ConfigOp} (h : UniqueIds c)
    (hfresh : OpFresh env fuel c op) (hok : configStep env fuel c op = .ok c') :
    UniqueIds c' := by
  cases op with
  | headerMerge filename => exact headerMerge_kept (uniqueIds_keptBy env.loc) hfresh h hok
  | metanameNew name =>
      obtain ⟨hnew, flags, rfl⟩ := metanameNew_ok hok
      exact ⟨(distinctOn_insert_iff h.metanames hnew).mpr hfresh, h.properties⟩
  | propertyNew name =>
      obtain ⟨hnew, flags, rfl⟩ := propertyNew_ok hok
      exact ⟨h.metanames, (distinctOn_insert_iff h.properties hnew).mpr hfresh⟩

/-- In a life whose operations all take free ids, the ids stay distinct. -/
theorem run_uniqueIds {lcCtype : XmlStr} {ops : List ConfigOp} {c : Config}
    (hfresh : Steps (configStep env fuel) (OpFresh env fuel) (configSetDefault lcCtype) ops)
    (hrun : run (configStep env fuel) (configSetDefault lcCtype) ops = .ok c) :
    UniqueIds c :=
  invariant_of_steps (fun _ _ _ h hop hok => configStep_uniqueIds h hop hok)
    (uniqueIds_configSetDefault lcCtype) hfresh hrun

/-- The ids of what is added: a file has distinct ones that no entry staying beside it has, and a
name from a document takes one that no entry has. -/
def OpDistinct (env : HeaderEnv) (fuel : Nat) (c : Config) : ConfigOp → Prop
  | .headerMerge filename =>
    ∀ config, headerRead env (fuel - 1) filename = .ok config →
      UniqueIds config ∧ idFree.merge c config
  | .metanameNew _ => IdFree MetaName.id c.metanames (c.flags.maxMetaId + 1)
  | .propertyNew _ => IdFree Property.id c.properties (c.flags.maxPropId + 1)

/-- One operation keeps the ids distinct exactly when what it adds is distinct from what stays. -/
theorem configStep_uniqueIds_iff {c c' : Config} {op : ConfigOp} (h : UniqueIds c)
    (hok : configStep env fuel c op = .ok c') : UniqueIds c' ↔ OpDistinct env fuel c op := by
  cases op with
  | headerMerge filename =>
      obtain ⟨config, hread, hmerged, -, -⟩ := headerMerge_ok hok
      rw [uniqueIds_merge_iff h hmerged]
      refine ⟨fun hids config' hread' => ?_, fun hids => hids config hread⟩
      cases hread.symm.trans hread'
      exact hids
  | metanameNew name =>
      obtain ⟨hnew, flags, rfl⟩ := metanameNew_ok hok
      have hiff := distinctOn_insert_iff (a := { metanameInit name with
        id := c.flags.maxMetaId + 1 }) h.metanames hnew
      exact ⟨fun hids => hiff.mp hids.metanames, fun hfree => ⟨hiff.mpr hfree, h.properties⟩⟩
  | propertyNew name =>
      obtain ⟨hnew, flags, rfl⟩ := propertyNew_ok hok
      have hiff := distinctOn_insert_iff (a := { propertyInit name with
        id := c.flags.maxPropId + 1 }) h.properties hnew
      exact ⟨fun hids => hiff.mp hids.properties, fun hfree => ⟨h.metanames, hiff.mpr hfree⟩⟩

/-- The ids are distinct after every operation of a life exactly when every file has distinct ids
that no entry staying beside it has, and every new name takes a free one. -/
theorem run_uniqueIds_iff {lcCtype : XmlStr} {ops : List ConfigOp} {c : Config}
    (hrun : run (configStep env fuel) (configSetDefault lcCtype) ops = .ok c) :
    (∀ pre post t, ops = pre ++ post →
        run (configStep env fuel) (configSetDefault lcCtype) pre = .ok t → UniqueIds t) ↔
      Steps (configStep env fuel) (OpDistinct env fuel) (configSetDefault lcCtype) ops :=
  prefixes_iff_steps (fun _ _ _ h hok => configStep_uniqueIds_iff h hok)
    (uniqueIds_configSetDefault lcCtype) hrun

end Life

/-! ## Two files without ids -/

/-- A directory with a file for `a` and one for `b`. -/
def metanameFiles : HeaderEnv where
  loc := .posix
  fileExists _ := true
  readerForFile filename :=
    if filename = lit "a.xml" then some ⟨metanameHeader (lit "a"), true, by decide⟩
    else some ⟨metanameHeader (lit "b"), true, by decide⟩
  readerForMemory _ := none
  buildURI _ _ := none
  freshIsValid := false

/-- Both files start the counter at 2. -/
theorem run_repeats_id :
    ¬ ∀ env fuel lcCtype ops c,
      run (configStep env fuel) (configSetDefault lcCtype) ops = .ok c → UniqueIds c := by
  intro h
  have hids := h metanameFiles 1 (lit "C")
    [.headerMerge (lit "a.xml"), .headerMerge (lit "b.xml")] _ rfl
  exact absurd (hids.metanames (lit "a") (lit "b") _ _ rfl rfl (by decide)) (by decide)

/-! ## A file with ids -/

/-- `<swish><MetaNames><a id="20"/><b id="21"/></MetaNames>` and a Property `a` with the id 20. -/
def namesWithIds : Reader where
  nodes := [startNode Swish.headerRoot [], startNode Swish.metaSection [],
    startNode (lit "a") [⟨none, lit "id", lit "20"⟩],
    startNode (lit "b") [⟨none, lit "id", lit "21"⟩], endNode Swish.metaSection,
    startNode Swish.propSection [], startNode (lit "a") [⟨none, lit "id", lit "20"⟩],
    endNode Swish.propSection, endNode Swish.headerRoot]
  complete := true
  text_not_blank := by decide

/-- The default config with these names. -/
def namesWithIdsConfig : Config :=
  let c := configSetDefault (lit "C")
  let withId (name : String) (id : Int) : MetaName := { metanameInit (lit name) with id }
  { c with
    metanames := (c.metanames.insert (lit "b") (withId "b" 21)).insert (lit "a") (withId "a" 20)
    properties := c.properties.insert (lit "a") { propertyInit (lit "a") with id := 20 } }

theorem headerMerge_namesWithIds : headerMerge (.oneFile namesWithIds) 1 (lit "a.xml")
    (configSetDefault (lit "C")) = .ok namesWithIdsConfig := rfl

theorem mergeMeets_namesWithIds : MergeMeets (.oneFile namesWithIds) idFree 1 (lit "a.xml")
    (configSetDefault (lit "C")) := by
  constructor
  · intro confFile reader hopen
    cases hopen
    refine steps_cons_of_ok ?_ rfl (steps_cons_of_ok ?_ rfl (steps_cons_of_ok ?_ rfl
      (steps_cons_of_ok ?_ rfl (steps_cons_of_ok ?_ rfl (steps_cons_of_ok ?_ rfl
        (steps_cons_of_ok ?_ rfl (steps_cons_of_ok ?_ rfl (steps_cons_of_ok ?_ rfl
          steps_nil))))))))
    case refine_7 =>
      intro _
      refine ⟨nofun, fun _ name hname => ?_⟩
      cases hname
      refine ⟨nofun, fun _ h₁ prop hattrs _ => ?_⟩
      cases hattrs
      show IdFree Property.id _ _
      decide +kernel
    case refine_3 | refine_4 =>
      intro _
      refine ⟨fun _ name hname => ?_, nofun⟩
      cases hname
      refine ⟨nofun, fun _ h₁ m hattrs _ => ?_⟩
      cases hattrs
      show IdFree MetaName.id _ _
      decide +kernel
    all_goals exact fun hentry => absurd hentry (by decide)
  · intro config hread
    cases hread
    exact ⟨by decide, by decide⟩

/-- Names with ids of their own, and then names from a document, which get the ids 2 and 3. -/
theorem run_uniqueIds_namesWithIds : ∃ c,
    run (configStep (.oneFile namesWithIds) 1) (configSetDefault (lit "C"))
        [.headerMerge (lit "a.xml"), .metanameNew (lit "foo"), .metanameNew (lit "bar"),
          .propertyNew (lit "bar")] = .ok c ∧
      UniqueIds c := by
  have hfresh : Steps (configStep (.oneFile namesWithIds) 1) (OpFresh (.oneFile namesWithIds) 1)
      (configSetDefault (lit "C")) [.headerMerge (lit "a.xml"), .metanameNew (lit "foo"),
        .metanameNew (lit "bar"), .propertyNew (lit "bar")] := by
    refine steps_cons_of_ok mergeMeets_namesWithIds headerMerge_namesWithIds
      (steps_cons_of_ok ?_ rfl (steps_cons_of_ok ?_ rfl (steps_cons_of_ok ?_ rfl steps_nil)))
    all_goals
      rw [OpFresh]
      decide +kernel
  exact ⟨_, rfl, run_uniqueIds hfresh rfl⟩

end LibSwish3
