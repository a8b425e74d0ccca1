import LibSwish3.Nested
import LibSwish3.UniqueIds

/-!
# Names that documents bring up

A parse changes the config in one way only: it adds names, with the next ids.  So what
`swish_metaname_new` and `swish_property_new` keep holds of the config behind every parse, of the
documents it includes too.  One such thing is that the largest ids are no smaller than any id:
where they are, new names get free ids, and the ids stay distinct.  The URI of a document is what
it was.

## Main definitions

* `ConfigInvariant` — what new names keep.
* `FreshIds` — the ids are distinct, and the next ones are free.
-/

namespace LibSwish3

open Runs Tables

/-- What holds of a config as long as names are added to it. -/
structure ConfigInvariant (I : Config → Prop) : Prop where
  metaname : ∀ c name c', I c → metanameNew name c = .ok c' → I c'
  property : ∀ c name c', I c → propertyNew name c = .ok c' → I c'

section Parse

variable {I : Config → Prop} {env : SaxEnv} {pd pd' : ParserData} {fuel : Nat} {filename : XmlStr}
  {uri : XmlStr}

/-- It holds of the config of a parser, whose document keeps its URI. -/
theorem ConfigInvariant.tokenSteps (H : ConfigInvariant I) (uri : XmlStr) :
    TokenSteps fun pd => I pd.config ∧ pd.docinfo.uri = uri where
  moves pd pd' h hmoves := by
    rw [hmoves.config, hmoves.docinfo]
    exact h
  autoMetaname pd name pd' h hok := by
    obtain ⟨config, hnew, rfl⟩ := autoMetaname_new hok
    exact ⟨H.metaname _ _ _ h.1 hnew, h.2⟩
  autoProperty pd name pd' h hok := by
    rcases autoProperty_new hok with rfl | ⟨config, hnew, rfl⟩
    · exact h
    · exact ⟨H.property _ _ _ h.1 hnew, h.2⟩
  tokenize pd metaname context pd' h hok := by
    obtain ⟨tokens, nwords, rfl⟩ := tokenizeBuffer_ok hok
    exact h

theorem ConfigInvariant.docparser_of_step (H : ConfigInvariant I)
    {step : ParserData → SaxEvent → Swish ParserData}
    (hstep : ∀ pd e pd', I pd.config ∧ pd.docinfo.uri = uri → step pd e = .ok pd' →
      I pd'.config ∧ pd'.docinfo.uri = uri)
    (hI : I pd.config) (huri : pd.docinfo.uri = uri)
    (h : docparser env step pd filename = .ok pd') : I pd'.config ∧ pd'.docinfo.uri = uri :=
  (H.tokenSteps uri).docparser (fun _ _ hP => hP) hstep ⟨hI, huri⟩ h

theorem ConfigInvariant.processXinclude (H : ConfigInvariant I)
    {step : ParserData → SaxEvent → Swish ParserData}
    (hstep : ∀ uri pd e pd', I pd.config ∧ pd.docinfo.uri = uri → step pd e = .ok pd' →
      I pd'.config ∧ pd'.docinfo.uri = uri) {file : XmlStr} {isText : Bool}
    (hP : I pd.config ∧ pd.docinfo.uri = uri)
    (h : processXinclude env step pd file isText = .ok pd') :
    I pd'.config ∧ pd'.docinfo.uri = uri := by
  have hflushed : ∀ parent, flushHead { pd with stash := some pd.self } = .ok parent →
      I parent.config ∧ parent.docinfo.uri = uri :=
    fun parent hflush =>
      (H.tokenSteps uri).flushHead (show I { pd with stash := some pd.self }.config ∧
        { pd with stash := some pd.self }.docinfo.uri = uri from hP) hflush
  rcases processXinclude_ok h with ⟨parent, hflush, rfl⟩ | ⟨parent, child, merged, hin, hmerge, rfl⟩
  · exact hflushed parent hflush
  · obtain ⟨hflush, xuri, docinfo, -, hparse⟩ := hin.parse
    obtain ⟨-, tokens, -, rfl⟩ := xincludeHandler_ok hmerge
    have hparent := hflushed parent hflush
    have hstart : ∀ docinfo, I (initChildData parent docinfo).config := fun _ => hparent.1
    have hchild := H.docparser_of_step (hstep _) (hstart _) rfl hparse
    exact ⟨hchild.1, hparent.2⟩

theorem ConfigInvariant.xincludeDeep (H : ConfigInvariant I) {file : XmlStr} {isText : Bool}
    (hP : I pd.config ∧ pd.docinfo.uri = uri)
    (h : xincludeDeep env fuel pd file isText = .ok pd') :
    I pd'.config ∧ pd'.docinfo.uri = uri := by
  induction fuel generalizing pd file isText pd' uri with
  | zero => cases h
  | succ fuel ih =>
      refine H.processXinclude ?_ hP h
      intro uri pd₁ e pd₂ hP₁ hok
      exact (H.tokenSteps uri).saxEvent (fun _ _ _ hinclude => ih hP₁ hinclude) hP₁ hok

theorem ConfigInvariant.saxStep (H : ConfigInvariant I) {e : SaxEvent}
    (hP : I pd.config ∧ pd.docinfo.uri = uri) (h : saxStep env fuel pd e = .ok pd') :
    I pd'.config ∧ pd'.docinfo.uri = uri :=
  (H.tokenSteps uri).saxEvent (fun _ _ _ hinclude => H.xincludeDeep hP hinclude) hP h

/-- It holds of the config behind a document, whose URI is what it was. -/
theorem ConfigInvariant.docparser (H : ConfigInvariant I) (hI : I pd.config)
    (h : LibSwish3.docparser env (LibSwish3.saxStep env fuel) pd filename = .ok pd') :
    I pd'.config ∧ pd'.docinfo.uri = pd.docinfo.uri :=
  H.docparser_of_step (fun _ _ _ hP hok => H.saxStep hP hok) hI rfl h

end Parse

/-! ## Free ids -/

/-- The ids are distinct, and none is larger than the largest one is said to be. -/
structure FreshIds (c : Config) : Prop extends UniqueIds c where
  metaBound : Each (fun _ m => m.id ≤ c.flags.maxMetaId) c.metanames
  propBound : Each (fun _ p => p.id ≤ c.flags.maxPropId) c.properties

theorem freshIds_configSetDefault (lcCtype : XmlStr) : FreshIds (configSetDefault lcCtype) where
  toUniqueIds := uniqueIds_configSetDefault lcCtype
  metaBound :=
    (by decide : Each (fun _ m => m.id ≤ Swish.metaTitleId) (configSetDefault []).metanames)
  propBound :=
    (by decide : Each (fun _ p => p.id ≤ Swish.propDescriptionId) (configSetDefault []).properties)

/-- A new entry with the next number. -/
theorem freshIds_insert {α : Type} {id : α → Int} {t : HashTable α} {name : XmlStr} {a : α}
    {v : Int} (hids : DistinctOn id t) (hbound : Each (fun _ b => id b ≤ v) t) (hnew : name ∉ t)
    (hid : id a = v + 1) :
    DistinctOn id (t.insert name a) ∧ Each (fun _ b => id b ≤ v + 1) (t.insert name a) := by
  constructor
  · refine (distinctOn_insert_iff hids hnew).mpr fun k b hk heq => ?_
    have hle : id b ≤ v := hbound k b hk
    omega
  · refine Each.insert (fun k b hk => ?_) (Int.le_of_eq hid)
    have hle : id b ≤ v := hbound k b hk
    exact Int.le_add_one hle

/-- New names keep the ids distinct. -/
theorem freshIds_configInvariant : ConfigInvariant FreshIds where
  metaname c name c' h hok := by
    obtain ⟨metaIds, -, hok⟩ := bind_ok_iff.mp hok
    obtain ⟨metanames, hadd, hok⟩ := bind_ok_iff.mp hok
    obtain ⟨hnew, rfl⟩ := hashAdd_ok_iff.mp hadd
    cases hok
    obtain ⟨hids, hbound⟩ := freshIds_insert h.metanames h.metaBound hnew
      (rfl : MetaName.id { metanameInit name with id := c.flags.maxMetaId + 1 } = _)
    exact ⟨⟨hids, h.properties⟩, hbound, h.propBound⟩
  property c name c' h hok := by
    obtain ⟨propIds, -, hok⟩ := bind_ok_iff.mp hok
    obtain ⟨properties, hadd, hok⟩ := bind_ok_iff.mp hok
    obtain ⟨hnew, rfl⟩ := hashAdd_ok_iff.mp hadd
    cases hok
    obtain ⟨hids, hbound⟩ := freshIds_insert h.properties h.propBound hnew
      (rfl : Property.id { propertyInit name with id := c.flags.maxPropId + 1 } = _)
    exact ⟨⟨h.metanames, hids⟩, h.metaBound, hbound⟩

/-- New names leave the entries that are there alone. -/
theorem extends_configInvariant (c : Config) : ConfigInvariant (Extends c) where
  metaname _ _ _ h hok := h.trans (metanameNew_extends hok)
  property _ _ _ h hok := h.trans (propertyNew_extends hok)

end LibSwish3
