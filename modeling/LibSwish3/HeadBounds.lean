import LibSwish3.ParseFhRules

/-!
# The bounds of a head

`buf_to_head` has one loop and three cursors: `k` in the buffer, `i` in the array `line` and `j`
in the array of the lines.  It stops at a blank line and at the bounds of the two arrays.  The
lines of a head come back as they are if they stay below both bounds; a longer head is taken for
a part of the body.

`headAccesses` lists what the loop reads and writes.  Everything it accesses is inside its
array, and the body starts inside the buffer, unless the buffer ends before a blank line or a line
is one byte too long for its NUL.

## Main definitions

* `bufToHead_message_iff` — which heads come back.
* `HeadAccess`, `headAccesses` — the loop as its accesses.
* `HeadInBounds`, `EndsInHead`, `FillsLine`.
-/

namespace LibSwish3

/-! ## Heads that come back -/

section Lines

variable {buf : XmlStr} {head : Head}

/-- One more line that fits keeps the bounds of the arrays. -/
private theorem bounded_append {lines : List XmlStr} {line : XmlStr}
    (hguard : lines.length < maxHeaders) (hroom : ¬ maxStrLen < line.length)
    (hlines : ∀ l ∈ lines, l.length ≤ maxStrLen) :
    (lines ++ [line]).length ≤ maxHeaders ∧ ∀ l ∈ lines ++ [line], l.length ≤ maxStrLen := by
  refine ⟨by rw [List.length_append, List.length_singleton]; omega, fun l hl => ?_⟩
  rcases List.mem_append.mp hl with hl | hl
  · exact hlines l hl
  · rw [List.mem_singleton.mp hl]
    omega

/-- What the loop returns is bounded like its arrays. -/
private theorem bufToHeadFrom_bounded {k : Nat} {line : XmlStr} {lines : List XmlStr}
    (hcount : lines.length ≤ maxHeaders) (hlines : ∀ l ∈ lines, l.length ≤ maxStrLen)
    (h : bufToHeadFrom k line lines buf = .ok head) :
    head.lines.length ≤ maxHeaders ∧ ∀ l ∈ head.lines, l.length ≤ maxStrLen := by
  fun_induction bufToHeadFrom k line lines buf with
  | case1 => cases h
  | case2 => cases h; exact ⟨hcount, hlines⟩
  | case3 => cases h
  | case4 _ _ _ _ _ _ ih => exact ih hcount hlines h
  | case5 => cases h
  | case6 k line lines c hguard hc next hroom hblank =>
      cases h
      exact bounded_append hguard.1 hroom hlines
  | case7 k line lines c hguard hc next hroom hblank ih =>
      obtain ⟨hcount', hlines'⟩ := bounded_append hguard.1 hroom hlines
      exact ih hcount' hlines' h
  | case8 _ _ _ _ _ _ _ _ _ ih => exact ih hcount hlines h
  | case9 => cases h; exact ⟨hcount, hlines⟩

theorem bufToHead_bounded (h : bufToHead buf = .ok head) :
    head.lines.length ≤ maxHeaders ∧ ∀ l ∈ head.lines, l.length ≤ maxStrLen :=
  bufToHeadFrom_bounded (Nat.zero_le _) (by simp) h

end Lines

/-- A message of header lines, none of which is blank. -/
structure Headers (lines : List XmlStr) : Prop where
  ne_nil : lines ≠ []
  lines_ne_nil : ∀ line ∈ lines, line ≠ []
  noNewline : ∀ line ∈ lines, newline ∉ line
  noNul : ∀ line ∈ lines, 0 ∉ line

/-- In front of the body nothing of a message is a NUL. -/
theorem cstr_message {m : Message} (h : Headers m.lines) :
    cstr m.bytes = headBytes m.lines ++ newline :: cstr m.body := by
  have hhead : ∀ lines : List XmlStr, (∀ line ∈ lines, 0 ∉ line) → 0 ∉ headBytes lines := by
    intro lines hlines
    simp only [headBytes, List.mem_flatMap, not_exists, not_and]
    intro line hline
    simp [hlines line hline, newline]
  have hall : ∀ c ∈ headBytes m.lines, decide (c ≠ 0) = true := by
    intro c hc
    simpa using fun h0 : c = 0 => hhead m.lines h.noNul (h0 ▸ hc)
  rw [Message.bytes, cstr, List.takeWhile_append_of_pos hall,
    List.takeWhile_cons_of_pos (by decide), cstr]

/-- The head of a message comes back exactly if there are at most `maxHeaders` lines and none is
longer than `maxStrLen`. -/
theorem bufToHead_message_iff {m : Message} (h : Headers m.lines) :
    bufToHead (cstr m.bytes) = .ok m.head ↔
      m.lines.length ≤ maxHeaders ∧ ∀ line ∈ m.lines, line.length ≤ maxStrLen := by
  refine ⟨fun hok => bufToHead_bounded hok, fun ⟨hcount, hlen⟩ => ?_⟩
  rw [cstr_message h, Message.head]
  refine bufToHead_of_fits (.inr rfl) (fun line hline => ?_) h.ne_nil hcount
  exact ⟨h.lines_ne_nil line hline, h.noNewline line hline, hlen line hline⟩

/-- A head with two of the headers. -/
theorem bufToHead_message_two :
    let m : Message := ⟨[lit "Content-Location: a", lit "Content-Length: 4"], lit "text"⟩
    bufToHead (cstr m.bytes) = .ok m.head :=
  (bufToHead_message_iff ⟨by decide, by decide, by decide, by decide⟩).mpr (by decide)

/-- A head with one header for each thing that a header can tell about a document does not come
back: the loop has no room for the seventh line. -/
theorem bufToHead_documented_headers :
    let m : Message :=
      ⟨[lit "Content-Location: a", lit "Content-Length: 4", lit "Last-Modified: 1",
        lit "Parser-Type: TXT", lit "Content-Type: text/plain", lit "Update-Mode: Index",
        lit "Encoding: UTF-8"], lit "text"⟩
    Headers m.lines ∧ bufToHead (cstr m.bytes) = .ok ⟨m.lines.take 6, 0⟩ ∧
      bufToHead (cstr m.bytes) ≠ .ok m.head :=
  ⟨⟨by decide, by decide, by decide, by decide⟩, by decide +kernel, by decide +kernel⟩

/-! ## What the loop accesses -/

/-- One access of the loop to an array. -/
inductive HeadAccess
  /-- `buf[k]` is read. -/
  | buffer (k : Nat)
  /-- `line[i]` is written. -/
  | line (i : Nat)
  /-- `h->lines[j]` is written. -/
  | lines (j : Nat)
  deriving DecidableEq, Repr

/-- An access inside its array, for a buffer with its NUL at index `n`. -/
def HeadAccess.InBounds (n : Nat) : HeadAccess → Prop
  | .buffer k => k ≤ n
  | .line i => i ≤ maxStrLen
  | .lines j => j < maxHeaders

@[simp] theorem HeadAccess.inBounds_buffer (n k : Nat) : (buffer k).InBounds n ↔ k ≤ n := .rfl

@[simp] theorem HeadAccess.inBounds_line (n i : Nat) : (line i).InBounds n ↔ i ≤ maxStrLen := .rfl

@[simp] theorem HeadAccess.inBounds_lines (n j : Nat) : (lines j).InBounds n ↔ j < maxHeaders :=
  .rfl

instance (n : Nat) : DecidablePred (HeadAccess.InBounds n) := fun a => by
  cases a <;> exact Nat.decLe _ _

/-- What the loop of `buf_to_head` accesses from its indices `k`, `i` and `j` on.  The list ends
where the loop has read behind the buffer. -/
def headAccesses (k i j : Nat) : XmlStr → List HeadAccess
  | [] => if j < maxHeaders ∧ i ≤ maxStrLen then [.buffer k, .line i, .buffer (k + 1)] else []
  | c :: rest =>
    if j < maxHeaders ∧ i ≤ maxStrLen then
      if c = newline then [.buffer k]
      else match rest with
        | [] => .buffer k :: .line i :: .buffer (k + 1) :: headAccesses (k + 1) (i + 1) j []
        | d :: next =>
          if d = newline then
            [.buffer k, .line i, .buffer (k + 1), .line (i + 1), .lines j, .buffer (k + 2)] ++
              if next.isEmpty ∨ next.head? = some newline then []
              else headAccesses (k + 2) 0 (j + 1) next
          else .buffer k :: .line i :: .buffer (k + 1) ::
            headAccesses (k + 1) (i + 1) j (d :: next)
    else []

/-- Every access is inside its array, and so is the start of the body. -/
def HeadInBounds (buf : XmlStr) : Prop :=
  (∀ a ∈ headAccesses 0 0 0 buf, a.InBounds buf.length) ∧
    ∀ head, bufToHead buf = .ok head → head.bodyStart ≤ buf.length

/-- Behind `j` lines the buffer ends where the loop still looks for a line. -/
def EndsInHead (j : Nat) (buf : XmlStr) : Prop :=
  ∃ lines rest, buf = headBytes lines ++ rest ∧ (∀ line ∈ lines, FitsLine line) ∧
    j + lines.length ≤ maxHeaders ∧
    (rest = [] ∨ j + lines.length < maxHeaders ∧ newline ∉ rest ∧ rest.length ≤ maxStrLen)

/-- Behind `j` lines a line fills the array to its last byte. -/
def FillsLine (j : Nat) (buf : XmlStr) : Prop :=
  ∃ lines line rest, buf = headBytes lines ++ line ++ newline :: rest ∧
    (∀ line ∈ lines, FitsLine line) ∧ j + lines.length < maxHeaders ∧
    newline ∉ line ∧ line.length = maxStrLen + 1

section Accesses

variable {k : Nat} {seen line rest : XmlStr} {lines : List XmlStr} {c : XmlChar}

private theorem headAccesses_cons {i j : Nat} (hguard : j < maxHeaders ∧ i ≤ maxStrLen)
    (hc : c ≠ newline) (hrest : rest.head? ≠ some newline) :
    headAccesses k i j (c :: rest) =
      .buffer k :: .line i :: .buffer (k + 1) :: headAccesses (k + 1) (i + 1) j rest := by
  rw [headAccesses.eq_def]
  simp only [if_pos hguard, if_neg hc]
  cases rest with
  | nil => rfl
  | cons d next => simp only [if_neg (show d ≠ newline by simpa using hrest)]

private theorem headAccesses_cons_newline {i j : Nat} (hguard : j < maxHeaders ∧ i ≤ maxStrLen)
    (hc : c ≠ newline) :
    headAccesses k i j (c :: newline :: rest) =
      [.buffer k, .line i, .buffer (k + 1), .line (i + 1), .lines j, .buffer (k + 2)] ++
        if rest.isEmpty ∨ rest.head? = some newline then []
        else headAccesses (k + 2) 0 (j + 1) rest := by
  rw [headAccesses.eq_def]
  simp only [if_pos hguard, if_neg hc, if_true]

/-- The loop leaves its arrays exactly where its model stops with a fault. -/
private theorem bufToHeadFrom_fault_iff (k : Nat) (line : XmlStr) (lines : List XmlStr)
    (buf : XmlStr) : (∃ f, bufToHeadFrom k line lines buf = .error (.fault f)) ↔
      ∃ a ∈ headAccesses k line.length lines.length buf, ¬ a.InBounds (k + buf.length) := by
  fun_induction bufToHeadFrom k line lines buf with
  | case1 k line lines hguard => simp [headAccesses, hguard]
  | case2 k line lines hguard => simp [headAccesses, hguard]
  | case3 k line lines rest hguard =>
      rw [headAccesses.eq_def]
      simp [hguard, croak]
  | case4 k line lines c hguard hc ih =>
      rw [ih, headAccesses_cons hguard hc (by simp)]
      simp [hguard]
  | case5 k line lines c hguard hc next hroom =>
      rw [headAccesses_cons_newline hguard hc]
      simp only [List.length_append, List.length_singleton] at hroom
      refine ⟨fun _ => ⟨.line (line.length + 1), by simp, ?_⟩, fun _ => ⟨_, rfl⟩⟩
      rw [HeadAccess.inBounds_line]
      omega
  | case6 k line lines c hguard hc next hroom hblank =>
      rw [headAccesses_cons_newline hguard hc, if_pos hblank]
      simp only [List.length_append, List.length_singleton, Nat.not_lt] at hroom
      simp [hguard, hroom]
  | case7 k line lines c hguard hc next hroom hblank ih =>
      rw [ih, headAccesses_cons_newline hguard hc, if_neg hblank]
      simp only [List.length_append, List.length_singleton, Nat.not_lt] at hroom
      simp only [List.length_append, List.length_cons, List.length_nil, List.mem_append,
        or_and_right, exists_or]
      simp [hguard, hroom, show k + 2 + next.length = k + (next.length + 1 + 1) by omega]
  | case8 k line lines c hguard hc d next hd ih =>
      rw [ih, headAccesses_cons hguard hc (by simpa using hd)]
      simp [hguard, show k + 1 + (next.length + 1) = k + (next.length + 1 + 1) by omega]
  | case9 k line lines c rest hguard =>
      rw [headAccesses.eq_def]
      simp [hguard]

theorem bufToHead_fault_iff (buf : XmlStr) :
    (∃ f, bufToHead buf = .error (.fault f)) ↔
      ∃ a ∈ headAccesses 0 0 0 buf, ¬ a.InBounds buf.length := by
  simpa [bufToHead] using bufToHeadFrom_fault_iff 0 [] [] buf

/-- The loop from `bufToHeadFrom k seen lines buf` on stays inside its arrays. -/
private def LoopInBounds (k : Nat) (seen : XmlStr) (lines : List XmlStr) (buf : XmlStr) : Prop :=
  (∀ a ∈ headAccesses k seen.length lines.length buf, a.InBounds (k + buf.length)) ∧
    ∀ head, bufToHeadFrom k seen lines buf = .ok head → head.bodyStart ≤ k + buf.length

/-- The loop has ended. -/
private theorem loopInBounds_of_full (buf : XmlStr)
    (hfull : ¬ (lines.length < maxHeaders ∧ seen.length ≤ maxStrLen)) :
    LoopInBounds k seen lines buf := by
  cases buf with
  | nil => simp [LoopInBounds, headAccesses, bufToHeadFrom, hfull]
  | cons c rest =>
      refine ⟨?_, fun head h => ?_⟩
      · rw [headAccesses.eq_def]
        simp [hfull]
      · rw [bufToHeadFrom.eq_def] at h
        simp only [if_neg hfull, Except.ok.injEq] at h
        simp [← h]

/-- At its NUL the loop reads behind the buffer. -/
private theorem not_loopInBounds_nil (hcount : lines.length < maxHeaders)
    (hseen : seen.length ≤ maxStrLen) : ¬ LoopInBounds k seen lines [] := by
  intro h
  have := h.1 (.buffer (k + 1)) (by simp [headAccesses, hcount, hseen])
  simp [HeadAccess.InBounds] at this

/-- A line that starts with a newline stops the process. -/
private theorem loopInBounds_newline : LoopInBounds k seen lines (newline :: rest) := by
  by_cases hguard : lines.length < maxHeaders ∧ seen.length ≤ maxStrLen
  · refine ⟨?_, fun head h => ?_⟩
    · rw [headAccesses.eq_def]
      simp [hguard, HeadAccess.InBounds]
    · rw [bufToHeadFrom.eq_def] at h
      simp only [if_pos hguard, if_true] at h
      cases h
  · exact loopInBounds_of_full _ hguard

/-- A byte inside a line. -/
private theorem loopInBounds_cons (hcount : lines.length < maxHeaders)
    (hseen : seen.length ≤ maxStrLen) (hc : c ≠ newline) (hrest : rest.head? ≠ some newline) :
    LoopInBounds k seen lines (c :: rest) ↔ LoopInBounds (k + 1) (seen ++ [c]) lines rest := by
  have hguard : lines.length < maxHeaders ∧ seen.length ≤ maxStrLen := ⟨hcount, hseen⟩
  have hloop : bufToHeadFrom k seen lines (c :: rest) =
      bufToHeadFrom (k + 1) (seen ++ [c]) lines rest := by
    rw [bufToHeadFrom.eq_def]
    simp only [if_pos hguard, if_neg hc]
    cases rest with
    | nil => rfl
    | cons d next => simp only [if_neg (show d ≠ newline by simpa using hrest)]
  simp only [LoopInBounds, headAccesses_cons hguard hc hrest, hloop, List.forall_mem_cons,
    HeadAccess.InBounds, hseen, List.length_append, List.length_cons]
  rw [show k + 1 + rest.length = k + (rest.length + 1) by omega]
  simp

/-- The last byte of a line. -/
private theorem loopInBounds_cons_newline (hcount : lines.length < maxHeaders)
    (hseen : seen.length ≤ maxStrLen) (hc : c ≠ newline) :
    LoopInBounds k seen lines (c :: newline :: rest) ↔
      (seen ++ [c]).length ≤ maxStrLen ∧ rest ≠ [] ∧
        (rest.head? = some newline ∨
          LoopInBounds (k + 2) [] (lines ++ [seen ++ [c]]) rest) := by
  have hguard : lines.length < maxHeaders ∧ seen.length ≤ maxStrLen := ⟨hcount, hseen⟩
  have hloop : bufToHeadFrom k seen lines (c :: newline :: rest) =
      if maxStrLen < (seen ++ [c]).length then .error (.fault .outOfBounds)
      else if rest.isEmpty ∨ rest.head? = some newline then
        .ok ⟨lines ++ [seen ++ [c]], k + 3⟩
      else bufToHeadFrom (k + 2) [] (lines ++ [seen ++ [c]]) rest := by
    rw [bufToHeadFrom.eq_def]
    simp only [if_pos hguard, if_neg hc, if_true]
  have hlen : (seen ++ [c]).length = seen.length + 1 := by simp
  by_cases hroom : seen.length + 1 ≤ maxStrLen
  · rw [if_neg (by omega)] at hloop
    have hfirst : ∀ a ∈ [HeadAccess.buffer k, .line seen.length, .buffer (k + 1),
        .line (seen.length + 1), .lines lines.length, .buffer (k + 2)],
        a.InBounds (k + (c :: newline :: rest).length) := by
      simp [HeadAccess.InBounds, hseen, hroom, hcount]
    rw [LoopInBounds, headAccesses_cons_newline hguard hc, hloop, List.forall_mem_append,
      and_assoc, and_iff_right hfirst, hlen, and_iff_right hroom]
    cases rest with
    | nil => simp
    | cons d next =>
        by_cases hd : d = newline
        · simp [hd]
        · -- the next line
          have hblank : ¬ ((d :: next).isEmpty ∨ (d :: next).head? = some newline) := by
            simpa using hd
          rw [if_neg hblank, if_neg hblank]
          simp only [LoopInBounds, List.length_append, List.length_cons, List.length_nil,
            List.head?_cons, Option.some.injEq, hd, false_or, ne_eq, reduceCtorEq,
            not_false_eq_true, true_and, Nat.zero_add]
          rw [show k + 2 + (next.length + 1) = k + (next.length + 1 + 1 + 1) by omega]
  · rw [LoopInBounds, headAccesses_cons_newline hguard hc, List.forall_mem_append, hlen]
    simp [HeadAccess.InBounds, hroom]

/-- The loop inside a line. -/
private theorem loopInBounds_append (hcount : lines.length < maxHeaders) (hline : newline ∉ line)
    (hlen : (seen ++ line).length ≤ maxStrLen + 1) (hrest : rest.head? ≠ some newline) :
    LoopInBounds k seen lines (line ++ rest) ↔
      LoopInBounds (k + line.length) (seen ++ line) lines rest := by
  induction line generalizing k seen with
  | nil => simp
  | cons c line ih =>
      simp only [List.mem_cons, not_or] at hline
      simp only [List.length_append, List.length_cons] at hlen
      have hhead : (line ++ rest).head? ≠ some newline := by
        cases line with
        | nil => exact hrest
        | cons d line =>
            simp only [List.mem_cons, not_or] at hline
            simpa using Ne.symm hline.2.1
      rw [List.cons_append, loopInBounds_cons hcount (by omega) (Ne.symm hline.1) hhead,
        ih hline.2 (by simp only [List.length_append, List.length_singleton]; omega)]
      rw [List.append_assoc, List.singleton_append, List.length_cons,
        show k + 1 + line.length = k + (line.length + 1) by omega]

/-- The loop at a line with its newline. -/
private theorem loopInBounds_line (hcount : lines.length < maxHeaders) (hline : newline ∉ line)
    (hne : line ≠ []) (hlen : line.length ≤ maxStrLen + 1) :
    LoopInBounds k [] lines (line ++ newline :: rest) ↔
      line.length ≤ maxStrLen ∧ rest ≠ [] ∧ (rest.head? = some newline ∨
        LoopInBounds (k + line.length + 1) [] (lines ++ [line]) rest) := by
  obtain ⟨init, c, rfl⟩ : ∃ init c, line = init ++ [c] :=
    ⟨_, _, (List.dropLast_append_getLast hne).symm⟩
  simp only [List.mem_append, List.mem_singleton, not_or] at hline
  simp only [List.length_append, List.length_singleton] at hlen
  have hc : c ≠ newline := Ne.symm hline.2
  rw [List.append_assoc, List.singleton_append,
    loopInBounds_append hcount hline.1 (by simpa using by omega) (by simpa using hc),
    List.nil_append, loopInBounds_cons_newline hcount (by omega) hc, List.length_append,
    List.length_singleton, show k + init.length + 2 = k + (init.length + 1) + 1 by omega]

/-- The loop at the end of the buffer. -/
private theorem not_loopInBounds_end (hcount : lines.length < maxHeaders) (hline : newline ∉ line)
    (hlen : line.length ≤ maxStrLen) : ¬ LoopInBounds k [] lines line := by
  have happ := @loopInBounds_append k [] line [] lines hcount hline
    (by rw [List.nil_append]; omega) (by simp)
  rw [List.append_nil] at happ
  rw [happ]
  exact not_loopInBounds_nil hcount hlen

/-- A line that is too long ends the loop. -/
private theorem loopInBounds_long (hcount : lines.length < maxHeaders) (hline : newline ∉ line)
    (hlen : maxStrLen + 1 ≤ line.length)
    (hrest : line.length = maxStrLen + 1 → rest.head? ≠ some newline) :
    LoopInBounds k [] lines (line ++ rest) := by
  have hcut := List.take_append_drop (maxStrLen + 1) line
  have hfirst : newline ∉ line.take (maxStrLen + 1) := fun h => hline (List.mem_of_mem_take h)
  have htake : (line.take (maxStrLen + 1)).length = maxStrLen + 1 := by
    rw [List.length_take]
    omega
  have hhead : (line.drop (maxStrLen + 1) ++ rest).head? ≠ some newline := by
    cases hdrop : line.drop (maxStrLen + 1) with
    | nil =>
        have := List.drop_eq_nil_iff.mp hdrop
        exact hrest (by omega)
    | cons d more =>
        have hd : d ∈ line := List.mem_of_mem_drop (hdrop ▸ List.mem_cons_self)
        simpa using fun h : d = newline => hline (h ▸ hd)
  rw [← hcut, List.append_assoc, loopInBounds_append hcount hfirst (by simp [htake]) hhead]
  refine loopInBounds_of_full _ fun h => ?_
  have := h.2
  rw [List.nil_append, htake] at this
  omega

/-! ## Where it leaves them -/

private theorem line_inj {line' rest' : XmlStr} (hline : newline ∉ line) (hline' : newline ∉ line')
    (h : line ++ newline :: rest = line' ++ newline :: rest') : line = line' ∧ rest = rest' := by
  induction line generalizing line' with
  | nil =>
      cases line' with
      | nil => exact ⟨rfl, by simpa using h⟩
      | cons c' line' =>
          rw [List.cons_append, List.nil_append, List.cons.injEq] at h
          exact absurd (h.1 ▸ List.mem_cons_self) hline'
  | cons c line ih =>
      cases line' with
      | nil =>
          rw [List.cons_append, List.nil_append, List.cons.injEq] at h
          exact absurd (h.1 ▸ List.mem_cons_self) hline
      | cons c' line' =>
          simp only [List.mem_cons, not_or] at hline hline'
          rw [List.cons_append, List.cons_append, List.cons.injEq] at h
          obtain ⟨hlines, hrest⟩ := ih hline.2 hline'.2 h.2
          exact ⟨by rw [h.1, hlines], hrest⟩

/-- A head ends behind its first line or in the lines after it. -/
private theorem endsInHead_line {j : Nat} (hline : newline ∉ line) :
    EndsInHead j (line ++ newline :: rest) ↔ FitsLine line ∧ EndsInHead (j + 1) rest := by
  refine ⟨?_, ?_⟩
  · rintro ⟨lines, tail, hbuf, hlines, hcount, htail⟩
    cases lines with
    | nil =>
        -- the newline would be in the last line
        rw [headBytes_nil, List.nil_append] at hbuf
        rcases htail with htail | ⟨-, htail, -⟩
        · simp [htail] at hbuf
        · simp [← hbuf] at htail
    | cons first lines =>
        have hfirst := hlines first (by simp)
        rw [headBytes_cons, List.append_assoc, List.cons_append] at hbuf
        obtain ⟨rfl, hrest⟩ := line_inj hline hfirst.noNewline hbuf
        rw [List.length_cons] at hcount htail
        refine ⟨hfirst, lines, tail, hrest, fun l hl => hlines l (by simp [hl]), by omega, ?_⟩
        rwa [show j + 1 + lines.length = j + (lines.length + 1) by omega]
  · rintro ⟨hfits, lines, tail, rfl, hlines, hcount, htail⟩
    refine ⟨line :: lines, tail, by simp, ?_, by rw [List.length_cons]; omega, ?_⟩
    · simpa using ⟨hfits, hlines⟩
    · rwa [List.length_cons, show j + (lines.length + 1) = j + 1 + lines.length by omega]

/-- The first line fills the array or a line after it does. -/
private theorem fillsLine_line {j : Nat} (hline : newline ∉ line) :
    FillsLine j (line ++ newline :: rest) ↔
      j < maxHeaders ∧ line.length = maxStrLen + 1 ∨ FitsLine line ∧ FillsLine (j + 1) rest := by
  refine ⟨?_, ?_⟩
  · rintro ⟨lines, full, tail, hbuf, hlines, hcount, hfull, hlen⟩
    cases lines with
    | nil =>
        rw [headBytes_nil, List.nil_append] at hbuf
        obtain ⟨rfl, -⟩ := line_inj hline hfull hbuf
        exact .inl ⟨by simpa using hcount, hlen⟩
    | cons first lines =>
        have hfirst := hlines first (by simp)
        rw [headBytes_cons, List.append_assoc, List.append_assoc, List.cons_append] at hbuf
        obtain ⟨rfl, hrest⟩ := line_inj hline hfirst.noNewline hbuf
        rw [List.length_cons] at hcount
        refine .inr ⟨hfirst, lines, full, tail, ?_, fun l hl => hlines l (by simp [hl]),
          by omega, hfull, hlen⟩
        rw [hrest, List.append_assoc]
  · rintro (⟨hj, hlen⟩ | ⟨hfits, lines, full, tail, rfl, hlines, hcount, hfull, hlen⟩)
    · exact ⟨[], line, rest, by simp, by simp, by simpa using hj, hline, hlen⟩
    · refine ⟨line :: lines, full, tail, by simp, ?_, by rw [List.length_cons]; omega, hfull, hlen⟩
      simpa using ⟨hfits, hlines⟩

/-- Without a newline the buffer is the last line. -/
private theorem endsInHead_last {j : Nat} (hline : newline ∉ line) :
    EndsInHead j line ↔
      j ≤ maxHeaders ∧ (line = [] ∨ j < maxHeaders ∧ line.length ≤ maxStrLen) := by
  refine ⟨?_, fun ⟨hj, h⟩ => ⟨[], line, by simp, by simp, by simpa using hj, ?_⟩⟩
  · rintro ⟨lines, tail, rfl, hlines, hcount, htail⟩
    cases lines with
    | nil =>
        refine ⟨by simpa using hcount, htail.imp (fun h => by simp [h]) fun h => ?_⟩
        simpa using ⟨h.1, h.2.2⟩
    | cons first lines => simp at hline
  · simpa using h.imp_right fun h => ⟨h.1, hline, h.2⟩

private theorem not_fillsLine_last {j : Nat} (hline : newline ∉ line) : ¬ FillsLine j line := by
  rintro ⟨lines, full, tail, rfl, -⟩
  simp at hline

/-- From the start of a line on, the loop stays inside its arrays exactly if the buffer neither
ends in the head nor fills a line. -/
private theorem loopInBounds_iff (k : Nat) (lines : List XmlStr) (buf : XmlStr)
    (hstart : lines.length < maxHeaders ∨ buf ≠ []) :
    LoopInBounds k [] lines buf ↔
      ¬ EndsInHead lines.length buf ∧ ¬ FillsLine lines.length buf := by
  by_cases hcount : lines.length < maxHeaders
  swap
  · -- all lines are read
    have hends : ¬ EndsInHead lines.length buf := by
      rintro ⟨more, tail, rfl, -, hmore, htail⟩
      have hnil : more = [] := List.eq_nil_of_length_eq_zero (by omega)
      rcases htail with rfl | h
      · simp [hnil, hcount] at hstart
      · omega
    have hfills : ¬ FillsLine lines.length buf := by
      rintro ⟨more, full, tail, rfl, -, hmore, -⟩
      omega
    exact ⟨fun _ => ⟨hends, hfills⟩, fun _ => loopInBounds_of_full buf fun h => hcount h.1⟩
  by_cases hbuf : newline ∈ buf
  swap
  · have hfills := @not_fillsLine_last buf lines.length hbuf
    rw [endsInHead_last hbuf]
    by_cases hlen : buf.length ≤ maxStrLen
    · have := @not_loopInBounds_end k buf lines hcount hbuf hlen
      simp [this, hlen, hcount, Nat.le_of_lt hcount]
    · have hnil : buf ≠ [] := by
        rintro rfl
        simp at hlen
      have := @loopInBounds_long k buf [] lines hcount hbuf (by omega) (by simp)
      rw [List.append_nil] at this
      simp [this, hlen, hfills, hnil]
  obtain ⟨line, rest, rfl, hline⟩ := List.eq_append_cons_of_mem hbuf
  rw [endsInHead_line hline, fillsLine_line hline]
  by_cases hne : line = []
  · have hfits : ¬ FitsLine line := fun h => h.ne_nil hne
    subst hne
    simp [hfits, loopInBounds_newline, maxStrLen]
  by_cases hlen : line.length ≤ maxStrLen
  · have hfits : FitsLine line := ⟨hne, hline, hlen⟩
    have hfull : line.length ≠ maxStrLen + 1 := by omega
    rw [loopInBounds_line hcount hline hne (by omega)]
    simp only [hlen, hfits, hfull, and_false, false_or, true_and]
    by_cases hrest : rest = []
    · have hends : EndsInHead (lines.length + 1) rest := by
        rw [hrest]
        exact (endsInHead_last (by simp)).mpr ⟨hcount, .inl rfl⟩
      simp [hrest ▸ hends, hrest]
    · have ih := loopInBounds_iff (k + line.length + 1) (lines ++ [line]) rest (.inr hrest)
      rw [List.length_append, List.length_singleton] at ih
      rw [ih]
      by_cases hblank : rest.head? = some newline
      · obtain ⟨more, rfl⟩ := List.head?_eq_some_iff.mp hblank
        have hempty : ¬ FitsLine [] := fun h => h.ne_nil rfl
        have hends := @endsInHead_line [] more (lines.length + 1) (by simp)
        have hfills := @fillsLine_line [] more (lines.length + 1) (by simp)
        rw [List.nil_append] at hends hfills
        simp [hends, hfills, hempty, maxStrLen]
      · simp [hrest, hblank]
  · have hfits : ¬ FitsLine line := fun h => hlen h.length_le
    by_cases hfull : line.length = maxStrLen + 1
    · rw [loopInBounds_line hcount hline hne (by omega)]
      simp [hfull, hcount]
    · have := @loopInBounds_long k line (newline :: rest) lines hcount hline (by omega)
        fun h => absurd h hfull
      simp [this, hfits, hfull]
termination_by buf.length

/-- The loop stays inside its arrays, and the body inside the buffer, exactly if the buffer
neither ends in the head nor has a line there that fills its array. -/
theorem headInBounds_iff (buf : XmlStr) :
    HeadInBounds (cstr buf) ↔ ¬ EndsInHead 0 (cstr buf) ∧ ¬ FillsLine 0 (cstr buf) := by
  have h := loopInBounds_iff 0 [] (cstr buf) (.inl (by decide))
  simpa [LoopInBounds, HeadInBounds, bufToHead] using h

/-- A message without its blank line: the body starts behind the NUL. -/
theorem not_headInBounds_truncated :
    ¬ HeadInBounds (cstr (lit "Content-Location: a\nContent-Length: 1\n")) := by
  intro h
  have hhead : bufToHead (cstr (lit "Content-Location: a\nContent-Length: 1\n")) =
      .ok ⟨[lit "Content-Location: a", lit "Content-Length: 1"], 39⟩ := by decide +kernel
  have hlen : (cstr (lit "Content-Location: a\nContent-Length: 1\n")).length = 38 := by
    decide +kernel
  have hle := h.2 _ hhead
  rw [hlen] at hle
  exact absurd hle (by decide)

end Accesses

end LibSwish3
