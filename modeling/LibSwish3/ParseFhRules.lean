import LibSwish3.Lib.Runs
import LibSwish3.ParseFh

/-!
# Reading one message

What the pieces of `swish_parse_fh` do with the bytes of a message: `buf_to_head` finds the
lines it was built from, `fgets` and the trimming give every line back, and the loop collects
the lines and hands over the bytes behind them.

## Main definitions

* `Message`, `HeaderLine`.
* `bufToHead_headBytes`, `fhLoop_message`.
-/

namespace LibSwish3

open Runs

/-- A head and a body. -/
structure Message where
  lines : List XmlStr
  body : XmlStr

/-- The lines, each with its newline. -/
def headBytes (lines : List XmlStr) : XmlStr := lines.flatMap (· ++ [newline])

/-- The head, a blank line and the body. -/
def Message.bytes (m : Message) : XmlStr := headBytes m.lines ++ newline :: m.body

def Message.head (m : Message) : Head := ⟨m.lines, (headBytes m.lines).length + 1⟩

/-- A header line as both entry points read it. -/
structure HeaderLine (line : XmlStr) : Prop where
  length_le : line.length ≤ 2046
  colon : 58 ∈ line
  noNul : 0 ∉ line
  noNewline : newline ∉ line
  head : ∀ c ∈ line.head?, isspace c = false
  last : ∀ c ∈ line.getLast?, isspace c = false

instance (line : XmlStr) : Decidable (HeaderLine line) :=
  letI : ∀ o : Option XmlChar, Decidable (∀ c ∈ o, isspace c = false) :=
    fun o => Option.decidableForallMem o
  decidable_of_iff (line.length ≤ 2046 ∧ 58 ∈ line ∧ 0 ∉ line ∧ newline ∉ line ∧
      (∀ c ∈ line.head?, isspace c = false) ∧ ∀ c ∈ line.getLast?, isspace c = false)
    ⟨fun ⟨h₁, h₂, h₃, h₄, h₅, h₆⟩ => ⟨h₁, h₂, h₃, h₄, h₅, h₆⟩,
      fun h => ⟨h.1, h.2, h.3, h.4, h.5, h.6⟩⟩

section Lines

variable {line rest : XmlStr} {lines : List XmlStr} {k : Nat}

@[simp] theorem headBytes_nil : headBytes [] = [] := rfl

@[simp] theorem headBytes_cons (line : XmlStr) (lines : List XmlStr) :
    headBytes (line :: lines) = line ++ newline :: headBytes lines := by
  simp [headBytes]

theorem HeaderLine.ne_nil (h : HeaderLine line) : line ≠ [] := by
  rintro rfl
  simpa using h.colon

/-! ## `buf_to_head` -/

/-- The loop reads a line to its end. -/
theorem bufToHeadFrom_line {seen : XmlStr} (hcount : lines.length < maxHeaders)
    (hne : line ≠ []) (hline : newline ∉ line) (hlen : (seen ++ line).length ≤ maxStrLen) :
    bufToHeadFrom k seen lines (line ++ newline :: rest) =
      if rest.isEmpty ∨ rest.head? = some newline then
        .ok ⟨lines ++ [seen ++ line], k + line.length + 2⟩
      else bufToHeadFrom (k + line.length + 1) [] (lines ++ [seen ++ line]) rest := by
  induction line generalizing k seen with
  | nil => exact absurd rfl hne
  | cons c line ih =>
      simp only [List.mem_cons, not_or] at hline
      simp only [List.length_append, List.length_cons] at hlen
      have hguard : lines.length < maxHeaders ∧ seen.length ≤ maxStrLen := ⟨hcount, by omega⟩
      rw [List.cons_append, bufToHeadFrom.eq_def]
      simp only [if_pos hguard, if_neg (Ne.symm hline.1)]
      cases line with
      | nil =>
          have hroom : ¬ maxStrLen < (seen ++ [c]).length := by
            simp only [List.length_append, List.length_singleton]
            simp only [List.length_nil] at hlen
            omega
          simp only [List.nil_append, if_true, if_neg hroom]
          rfl
      | cons d line =>
          simp only [List.mem_cons, not_or] at hline
          simp only [List.cons_append, if_neg (Ne.symm hline.2.1)]
          have hnext := @ih (k + 1) (seen ++ [c]) (by simp)
            (by simpa using hline.2) (by simp; simp at hlen; omega)
          simp only [List.cons_append] at hnext
          rw [hnext]
          simp only [List.append_assoc, List.cons_append, List.nil_append, List.length_cons,
            show k + 1 + (line.length + 1) = k + (line.length + 1 + 1) by omega]

/-- A line that the loop can hold: the array has room for it and its NUL. -/
structure FitsLine (line : XmlStr) : Prop where
  ne_nil : line ≠ []
  noNewline : newline ∉ line
  length_le : line.length ≤ maxStrLen

theorem HeaderLine.fits (h : HeaderLine line) : FitsLine line := by
  refine ⟨h.ne_nil, h.noNewline, ?_⟩
  have := h.length_le
  simp only [maxStrLen]
  omega

/-- The loop reads the lines of a head, and stops at a blank line or at the end. -/
private theorem bufToHeadFrom_headBytes (hrest : rest.isEmpty ∨ rest.head? = some newline)
    (hlines : ∀ line ∈ lines, FitsLine line) (hne : lines ≠ []) {done : List XmlStr}
    (hcount : done.length + lines.length ≤ maxHeaders) :
    bufToHeadFrom k [] done (headBytes lines ++ rest) =
      .ok ⟨done ++ lines, k + (headBytes lines).length + 1⟩ := by
  induction lines generalizing k done with
  | nil => exact absurd rfl hne
  | cons line lines ih =>
      have hline := hlines line (by simp)
      have hlen : (([] : XmlStr) ++ line).length ≤ maxStrLen := hline.length_le
      rw [List.length_cons] at hcount
      rw [headBytes_cons, List.append_assoc, List.cons_append,
        bufToHeadFrom_line (by omega) hline.ne_nil hline.noNewline hlen, List.nil_append]
      cases lines with
      | nil =>
          rw [headBytes_nil, List.nil_append, if_pos hrest]
          simp [Nat.add_assoc]
      | cons next lines =>
          have hnext := hlines next (by simp)
          obtain ⟨c, tail, htail⟩ := List.exists_cons_of_ne_nil hnext.ne_nil
          have hc : c ≠ newline := by
            rintro rfl
            exact hnext.noNewline (by simp [htail])
          rw [if_neg (by simp [htail, hc]),
            ih (fun l hl => hlines l (by simp [hl])) (by simp)
              (by simp only [List.length_append, List.length_singleton]; omega)]
          simp only [List.append_assoc, List.cons_append, List.nil_append, List.length_append,
            List.length_cons, Except.ok.injEq, Head.mk.injEq, true_and]
          omega

/-- A head of lines that fit, in a buffer of its own or in front of a blank line. -/
theorem bufToHead_of_fits (hrest : rest.isEmpty ∨ rest.head? = some newline)
    (hlines : ∀ line ∈ lines, FitsLine line) (hne : lines ≠ [])
    (hcount : lines.length ≤ maxHeaders) :
    bufToHead (headBytes lines ++ rest) = .ok ⟨lines, (headBytes lines).length + 1⟩ := by
  rw [bufToHead, bufToHeadFrom_headBytes hrest hlines hne (by simpa using hcount)]
  simp

/-- The head of a message, in a buffer of its own or in front of a blank line. -/
theorem bufToHead_headBytes (hrest : rest.isEmpty ∨ rest.head? = some newline)
    (hlines : ∀ line ∈ lines, HeaderLine line) (hne : lines ≠ [])
    (hcount : lines.length ≤ maxHeaders) :
    bufToHead (headBytes lines ++ rest) = .ok ⟨lines, (headBytes lines).length + 1⟩ :=
  bufToHead_of_fits hrest (fun line hline => (hlines line hline).fits) hne hcount

/-! ## `fgets` and trimming -/

theorem lineOf_append (hline : newline ∉ line) :
    lineOf (line ++ newline :: rest) = line ++ [newline] := by
  induction line with
  | nil => simp [lineOf]
  | cons c line ih =>
      simp only [List.mem_cons, not_or] at hline
      rw [List.cons_append, lineOf, if_neg (Ne.symm hline.1), ih hline.2, List.cons_append]

/-- A line that fits into the array is read with its newline. -/
theorem fgets_append (hline : newline ∉ line) (hlen : line.length ≤ 2046) :
    fgets maxStrLen (line ++ newline :: rest) = some (line ++ [newline], rest) := by
  obtain ⟨more, hmore⟩ : ∃ more, (line ++ newline :: rest).take (maxStrLen - 1) =
      line ++ newline :: more := by
    refine ⟨rest.take (maxStrLen - 1 - line.length - 1), ?_⟩
    have hroom : maxStrLen - 1 - line.length = maxStrLen - 1 - line.length - 1 + 1 := by
      simp only [maxStrLen]
      omega
    rw [List.take_append, List.take_of_length_le (by simp only [maxStrLen]; omega), hroom,
      List.take_succ_cons]
    simp
  have hne : (line ++ newline :: rest).isEmpty = false := by simp
  rw [fgets, if_neg (by simp [hne]), hmore, lineOf_append hline]
  simp

theorem strSkipWs_of_head (h : ∀ c ∈ line.head?, isspace c = false) : strSkipWs line = line := by
  cases line with
  | nil => rfl
  | cons c line => simp [strSkipWs, h c (by simp)]

theorem strTrimWs_of_last (h : ∀ c ∈ line.getLast?, isspace c = false) :
    strTrimWs line = line := by
  have hrev : ∀ c ∈ line.reverse.head?, isspace c = false := by
    simpa [List.head?_reverse] using h
  have := strSkipWs_of_head hrev
  rw [strSkipWs] at this
  rw [strTrimWs, this, List.reverse_reverse]

theorem findlast_append (line : XmlStr) :
    findlast (line ++ [newline]) [newline] = some (line, [newline]) := by
  rw [findlast]
  rw [if_pos (by simp)]
  simp

/-- Trimming gives a header line back. -/
theorem trimLine_append (h : HeaderLine line) : trimLine (line ++ [newline]) = line := by
  have hnul : (0 : XmlChar) ∉ line ++ [newline] := by
    simpa [newline] using h.noNul
  have hhead : ∀ c ∈ (line ++ [newline]).head?, isspace c = false := by
    rw [List.head?_append_of_ne_nil _ h.ne_nil]
    exact h.head
  simp only [trimLine, cstr_of_noNul hnul, strSkipWs_of_head hhead,
    findlast_append, strTrimWs_of_last h.last]

/-- A blank line is empty. -/
@[simp] theorem trimLine_newline : trimLine [newline] = [] := by decide

end Lines

/-! ## The loop -/

section Loop

variable {π σ : Type} {loc : Locale} {config : Config} {consumer : Consumer π σ}
  {lines : List XmlStr} {rest headBuf : XmlStr} {nheaders fuel : Nat} {fileCnt : UInt32} {app : σ}

/-- A message more in front of `n` others. -/
theorem fileCnt_add_one (fileCnt : UInt32) (n : Nat) :
    fileCnt + 1 + UInt32.ofNat n = fileCnt + UInt32.ofNat (n + 1) := by
  rw [UInt32.ofNat_add, UInt32.add_assoc, UInt32.add_comm 1]
  rfl

theorem fhLoop_nil : fhLoop loc config consumer (fuel + 1) ⟨[], [], 0, fileCnt, app⟩ =
    .ok (fileCnt, app) := by
  simp [fhLoop, fgets]

/-- One round on a header line. -/
theorem fhLoop_line {line : XmlStr} (h : HeaderLine line) :
    fhLoop loc config consumer (fuel + 1)
        ⟨line ++ newline :: rest, headBuf, nheaders, fileCnt, app⟩ =
      fhLoop loc config consumer fuel
        ⟨rest, headBuf ++ line ++ [newline], nheaders + 1, fileCnt, app⟩ := by
  have hempty : line.isEmpty = false := by simpa using h.ne_nil
  simp only [fhLoop, fgets_append h.noNewline h.length_le, trimLine_append h, fhLine, hempty,
    Bool.false_eq_true, and_false, if_false, ok_bind]

/-- The loop collects the lines of a head. -/
theorem fhLoop_headBytes (hlines : ∀ line ∈ lines, HeaderLine line) :
    fhLoop loc config consumer (fuel + lines.length)
        ⟨headBytes lines ++ rest, headBuf, nheaders, fileCnt, app⟩ =
      fhLoop loc config consumer fuel
        ⟨rest, headBuf ++ headBytes lines, nheaders + lines.length, fileCnt, app⟩ := by
  induction lines generalizing headBuf nheaders with
  | nil => simp
  | cons line lines ih =>
      rw [headBytes_cons, List.length_cons, ← Nat.add_assoc, List.append_assoc,
        List.cons_append, fhLoop_line (hlines line (by simp)),
        ih fun l hl => hlines l (by simp [hl])]
      simp only [List.append_assoc, List.cons_append, List.nil_append,
        show nheaders + 1 + lines.length = nheaders + (lines.length + 1) by omega]

theorem slurpFh_append (body rest : XmlStr) :
    slurpFh (body ++ rest) body.length = .ok (noNulls body, rest) := by
  rw [slurpFh]
  rw [if_neg (by omega), if_neg (by simp)]
  simp

/-- The loop on a message: its head is read, and `docinfo.size` bytes behind it. -/
theorem fhLoop_message {m : Message} (hlines : ∀ line ∈ m.lines, HeaderLine line)
    (hmin : 2 ≤ m.lines.length) (hmax : m.lines.length ≤ maxHeaders) :
    fhLoop loc config consumer (fuel + 1 + m.lines.length)
        ⟨m.bytes ++ rest, [], 0, fileCnt, app⟩ =
      (do let docinfo ← docinfoOf loc config m.head
          let (readBuffer, fh) ← slurpFh (m.body ++ rest) docinfo.size
          let (_, app) ← handOver consumer docinfo readBuffer docinfo.size app
          fhLoop loc config consumer fuel ⟨fh, [], 0, fileCnt + 1, app⟩) := by
  have hhead : bufToHead (headBytes m.lines) = .ok m.head := by
    have hne : m.lines ≠ [] := by
      intro hnil
      simp [hnil] at hmin
    rw [Message.head]
    simpa using bufToHead_headBytes (.inl List.isEmpty_nil) hlines hne hmax
  rw [Message.bytes, List.append_assoc, fhLoop_headBytes hlines, List.cons_append, fhLoop,
    ← List.nil_append (newline :: (m.body ++ rest)), fgets_append (by simp) (by simp)]
  simp only [List.nil_append, trimLine_newline, fhLine, Nat.zero_add, hmin, true_and,
    List.isEmpty_nil, if_true, readBody, hhead, ok_bind]
  cases docinfoOf loc config m.head with
  | error e => rfl
  | ok docinfo =>
      simp only [ok_bind]
      cases slurpFh (m.body ++ rest) docinfo.size with
      | error e => rfl
      | ok read =>
          simp only [ok_bind]
          cases handOver consumer docinfo read.1 docinfo.size app with
          | error e => rfl
          | ok result => rfl

end Loop

end LibSwish3
