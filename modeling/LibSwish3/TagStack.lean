import LibSwish3.CString

/-!
# Tag stacks

The parser keeps three stacks of tags: the open elements, the open MetaNames and the open
Properties.  An entry remembers the raw name of its element and the baked name it stands
for; elements are matched by the raw name when they end.

## Main definitions

* `Tag`, `TagStack`.
* `flattenTagStack` — the baked names of a stack, outermost first, with a joiner.
* `TagStack.push`, `TagStack.pop`, `TagStack.popOnMatch`.
-/

namespace LibSwish3

structure Tag where
  raw : XmlStr
  baked : XmlStr
  context : XmlStr
  n : Int
  deriving DecidableEq, Repr

/-- A stack, innermost tag first. -/
structure TagStack where
  tags : List Tag
  count : Int
  deriving DecidableEq, Repr

def TagStack.empty : TagStack := ⟨[], 0⟩

/-- `flatten_tag_stack`: put the baked name of each tag before `flat`. -/
def flattenTagStack (flat : XmlStr) (stack : TagStack) (flattenJoin : XmlChar) : XmlStr :=
  stack.tags.foldl (fun flat tag => tag.baked ++ flattenJoin :: flat) flat

namespace TagStack

/-- `push_tag_stack`. -/
def push (stack : TagStack) (raw baked : XmlStr) (flattenJoin : XmlChar) : TagStack where
  tags := ⟨raw, baked, flattenTagStack baked stack flattenJoin, stack.count⟩ :: stack.tags
  count := stack.count + 1

/-- `pop_tag_stack`: the last tag of a stack takes whatever is below it along. -/
def pop (stack : TagStack) : Option Tag × TagStack :=
  match stack.tags with
  | [] => (none, stack)
  | tag :: rest =>
    if 1 < stack.count then (some tag, ⟨rest, stack.count - 1⟩)
    else (some tag, ⟨[], stack.count - 1⟩)

/-- The head of a stack, whose members are read without a test. -/
def head (stack : TagStack) : Swish Tag :=
  match stack.tags with
  | [] => .error (.fault .nullDeref)
  | tag :: _ => .ok tag

/-- `pop_tag_stack_on_match`: pop the head when its raw name is the tag's. -/
def popOnMatch (stack : TagStack) (tag : XmlStr) : Swish (Option Tag × TagStack) := do
  let top ← stack.head
  pure (if top.raw = tag then stack.pop else (none, stack))

/-- The count is the number of tags. -/
def Counted (stack : TagStack) : Prop := stack.count = stack.tags.length

variable {stack : TagStack} {raw baked tag : XmlStr} {join : XmlChar}

theorem counted_empty : Counted empty := rfl

theorem Counted.push (h : stack.Counted) : (stack.push raw baked join).Counted := by
  simp only [Counted] at h
  simp [Counted, TagStack.push, h]

@[simp] theorem push_tags : (stack.push raw baked join).tags =
    ⟨raw, baked, flattenTagStack baked stack join, stack.count⟩ :: stack.tags := rfl

/-- A counted stack pops exactly its head. -/
theorem pop_cons {top : Tag} {rest : List Tag} (h : stack.Counted)
    (htags : stack.tags = top :: rest) :
    stack.pop = (some top, ⟨rest, stack.count - 1⟩) := by
  have hcount : stack.count = rest.length + 1 := by simpa [Counted, htags] using h
  rw [pop]
  rw [htags]
  by_cases hone : 1 < stack.count
  · simp [hone]
  · have hrest : rest = [] := List.length_eq_zero_iff.mp (by omega)
    simp [hone, hrest]

theorem Counted.pop (h : stack.Counted) : stack.pop.2.Counted := by
  cases htags : stack.tags with
  | nil => simpa [TagStack.pop, htags] using h
  | cons top rest =>
      rw [pop_cons h htags]
      simp only [Counted, htags, List.length_cons] at h ⊢
      omega

theorem head_ok_iff {top : Tag} : stack.head = .ok top ↔ stack.tags.head? = some top := by
  rw [head]
  cases stack.tags <;> simp

/-- Popping on a match: the head goes exactly when its raw name is the tag's. -/
theorem popOnMatch_cons {top : Tag} {rest : List Tag} (h : stack.Counted)
    (htags : stack.tags = top :: rest) :
    stack.popOnMatch tag = .ok (if top.raw = tag then (some top, ⟨rest, stack.count - 1⟩)
      else (none, stack)) := by
  have hhead : stack.head = .ok top := head_ok_iff.mpr (by rw [htags]; rfl)
  rw [popOnMatch, hhead, pop_cons h htags]
  rfl

end TagStack

end LibSwish3
