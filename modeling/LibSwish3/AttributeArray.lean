import LibSwish3.Lib.Segments
import LibSwish3.Sax

/-!
# The attribute array

`mystartElementNs` packs the attributes that libxml2 reports into an array of names and values,
and every later loop over that array stops at the first NULL in the place of a name.  An attribute
with an empty value gets a NULL in the place of its name.  So it ends the array for all that read
it: the scan for XInclude, `bake_tag`, and the loop that frees the values.

## Main definitions

* `AttPtr`, `packAtts` — the array.
* `scanAtts`, `freedAtts` — the loops over it.
* `KeepsAttributes`, `keepsAttributes_iff`.
-/

namespace LibSwish3

open Segments

/-! ## Packing and scanning -/

/-- A cell of the array. -/
inductive AttPtr
  | null
  /-- A cell that is never written. -/
  | unset
  /-- A name, which libxml2 owns. -/
  | name (s : XmlStr)
  /-- The copy of a value, which the callback has to free. -/
  | value (s : XmlStr)
  deriving DecidableEq, Repr

/-- The loop that fills the array, two cells for each attribute, and the NULL behind it. -/
def packAtts : List (XmlStr × XmlStr) → List AttPtr
  | [] => [.null]
  | att :: attributes =>
    (if 0 < att.2.length then [.name att.1, .value att.2] else [.null, .unset]) ++
      packAtts attributes

/-- `for (i = 0; (atts[i] != NULL); i += 2)`: the cells that the body of the loop sees. -/
def scanAtts : List AttPtr → List (AttPtr × AttPtr)
  | p :: q :: atts => if p = .null then [] else (p, q) :: scanAtts atts
  | _ => []

/-- The loop that frees the values. -/
def freedAtts (atts : List AttPtr) : List AttPtr := (scanAtts atts).map Prod.snd

def AttPtr.isValue : AttPtr → Bool
  | .value _ => true
  | _ => false

/-- The attributes with a value. -/
def withValue (attributes : List (XmlStr × XmlStr)) : List (XmlStr × XmlStr) :=
  attributes.filter (!·.2.isEmpty)

/-- The loops see every attribute with a value, in order, and every allocated value is freed. -/
def KeepsAttributes (attributes : List (XmlStr × XmlStr)) : Prop :=
  scanAtts (packAtts attributes) =
      (withValue attributes).map (fun att => (.name att.1, .value att.2)) ∧
    freedAtts (packAtts attributes) = (packAtts attributes).filter AttPtr.isValue

section Attributes

variable {attributes : List (XmlStr × XmlStr)} {att : XmlStr × XmlStr}

/-- The loops see the attributes in front of the first empty value. -/
theorem scanAtts_packAtts (attributes : List (XmlStr × XmlStr)) :
    scanAtts (packAtts attributes) =
      (attributes.takeWhile (!·.2.isEmpty)).map fun att => (.name att.1, .value att.2) := by
  induction attributes with
  | nil => rfl
  | cons att attributes ih =>
      by_cases hvalue : att.2 = []
      · simp [packAtts, scanAtts, hvalue]
      · simp [packAtts, scanAtts, hvalue, ih, List.length_pos_iff]

/-- Every value that is not empty is allocated. -/
theorem filter_packAtts (attributes : List (XmlStr × XmlStr)) :
    (packAtts attributes).filter AttPtr.isValue =
      (withValue attributes).map fun att => .value att.2 := by
  induction attributes with
  | nil => rfl
  | cons att attributes ih =>
      by_cases hvalue : att.2 = []
      · simpa [packAtts, withValue, hvalue, AttPtr.isValue] using ih
      · have hpos : 0 < att.2.length := List.length_pos_iff.mpr hvalue
        rw [packAtts, if_pos hpos, List.filter_append, ih]
        have hcells : [AttPtr.name att.1, .value att.2].filter AttPtr.isValue = [.value att.2] :=
          rfl
        rw [hcells]
        simp [withValue, hvalue]

/-- `sax2Atts` is what the loops over the array see. -/
theorem sax2Atts_eq_scanAtts (hne : attributes ≠ []) :
    (sax2Atts attributes).map (·.map fun att => (AttPtr.name att.1, att.2.map AttPtr.value)) =
      some ((scanAtts (packAtts attributes)).map fun cells => (cells.1, some cells.2)) := by
  have hempty : attributes.isEmpty = false := by simpa using hne
  simp [sax2Atts, hempty, scanAtts_packAtts]

/-- No attribute is lost exactly if none with a value stands behind one without. -/
theorem keepsAttributes_iff (attributes : List (XmlStr × XmlStr)) :
    KeepsAttributes attributes ↔ attributes.Pairwise fun a b => a.2 = [] → b.2 = [] := by
  have hinj : Function.Injective fun att : XmlStr × XmlStr =>
      (AttPtr.name att.1, AttPtr.value att.2) := by
    rintro ⟨name, value⟩ ⟨name', value'⟩ h
    simpa using h
  have hcut := takeWhile_eq_filter_iff (fun att : XmlStr × XmlStr => !att.2.isEmpty) attributes
  simp only [Bool.not_eq_false', List.isEmpty_iff] at hcut
  rw [← hcut, KeepsAttributes, freedAtts, filter_packAtts, scanAtts_packAtts, withValue]
  refine ⟨fun h => List.map_injective_iff.mpr hinj h.1, fun h => ?_⟩
  rw [h]
  simp

/-- In `<a x="" y="1">` the loops see no attribute, and the value of `y` is not freed. -/
theorem not_keepsAttributes_empty :
    ¬ KeepsAttributes [(lit "x", []), (lit "y", lit "1")] := by
  intro h
  exact absurd h.1 (by decide)

end Attributes

end LibSwish3
