import KernelThreads.User.Match

namespace KernelThreads.Grep

/-! The loop of `grep` over what `read` returns. -/

abbrev NEWLINE : BitVec 8 := 10

abbrev BUFSIZE : Nat := 1024

/-- `strchr`: the offset of the first `c`, before a NUL. -/
def strchr (c : BitVec 8) : Text → Option Nat
  | [] => none
  | b :: s => if b = 0 then none else if b = c then some 0 else (strchr c s).map (· + 1)

/-- The inner loop, on the text from `p` on: what is written, and the text from
the last `p` on. -/
def grepLines (pattern : Text) : Nat → Text → Text × Text
  | 0, text => ([], text)
  | turns + 1, text =>
      match strchr NEWLINE text with
      | none => ([], text)
      | some q =>
          let rest := grepLines pattern turns (text.drop (q + 1))
          let line := text.take q
          ((if matchText pattern line then line ++ [NEWLINE] else []) ++ rest.1, rest.2)

/-- The outer loop.  `kept` is the text in the first `m` bytes of the buffer; there
is no result if the NUL would be written after the buffer. -/
def grep (pattern : Text) : List Text → Text → Option Text
  | [], _ => some []
  | chunk :: chunks, kept =>
      if chunk = [] then some []
      else if BUFSIZE ≤ (kept ++ chunk).length then none
      else
        let lines := grepLines pattern (kept ++ chunk).length (kept ++ chunk)
        -- `p == buf`
        let kept' := if lines.2.length = (kept ++ chunk).length then [] else lines.2
        (grep pattern chunks kept').map (lines.1 ++ ·)

/-- The complete lines of a text, without their newlines, and what is left; `line`
is the start of the first line. -/
def splitLines : Text → Text → List Text × Text
  | line, [] => ([], line)
  | line, b :: text =>
      if b = NEWLINE then (line :: (splitLines [] text).1, (splitLines [] text).2)
      else splitLines (line ++ [b]) text

def printed (pattern : Text) (lines : List Text) : Text :=
  (lines.filter (matchText pattern)).flatMap (· ++ [NEWLINE])

def expected (pattern : Text) (stream : Text) : Text :=
  printed pattern (splitLines [] stream).1

variable {pattern line text more kept : Text} {chunks : List Text}

theorem splitLines_none (h : NEWLINE ∉ text) : splitLines line text = ([], line ++ text) := by
  induction text generalizing line with
  | nil => rw [splitLines, List.append_nil]
  | cons b text ih =>
      rw [List.mem_cons, not_or] at h
      rw [splitLines, if_neg (Ne.symm h.1), ih h.2, List.append_assoc]
      rfl

theorem splitLines_line (h : NEWLINE ∉ text) :
    splitLines line (text ++ NEWLINE :: more) =
      ((line ++ text) :: (splitLines [] more).1, (splitLines [] more).2) := by
  induction text generalizing line with
  | nil => rw [List.nil_append, splitLines, if_pos rfl, List.append_nil]
  | cons b text ih =>
      rw [List.mem_cons, not_or] at h
      rw [List.cons_append, splitLines, if_neg (Ne.symm h.1), ih h.2, List.append_assoc]
      rfl

/-- The lines of a text are those of its first part, and those of the rest with
what was left. -/
theorem splitLines_append (line text more : Text) :
    splitLines line (text ++ more) =
      ((splitLines line text).1 ++ (splitLines (splitLines line text).2 more).1,
        (splitLines (splitLines line text).2 more).2) := by
  induction text generalizing line with
  | nil => rfl
  | cons b text ih =>
      rw [List.cons_append, splitLines, splitLines]
      by_cases hb : b = NEWLINE
      · rw [if_pos hb, if_pos hb, ih []]
        rfl
      · rw [if_neg hb, if_neg hb, ih (line ++ [b])]

theorem splitLines_left_none (h : NEWLINE ∉ line) : NEWLINE ∉ (splitLines line text).2 := by
  induction text generalizing line with
  | nil => exact h
  | cons b text ih =>
      rw [splitLines]
      split
      · exact ih (by simp)
      next hb =>
        refine ih fun hin => ?_
        rcases List.mem_append.mp hin with hin | hin
        · exact h hin
        · exact hb (List.mem_singleton.mp hin).symm

theorem splitLines_start (h : NEWLINE ∉ line) :
    splitLines line text = splitLines [] (line ++ text) := by
  rw [splitLines_append, splitLines_none h]
  rfl

theorem strchr_none (hzero : (0 : BitVec 8) ∉ text) (h : NEWLINE ∉ text) :
    strchr NEWLINE text = none := by
  induction text with
  | nil => rfl
  | cons b text ih =>
      rw [List.mem_cons, not_or] at h hzero
      rw [strchr, if_neg (Ne.symm hzero.1), if_neg (Ne.symm h.1), ih hzero.2 h.2]
      rfl

theorem strchr_line (hzero : (0 : BitVec 8) ∉ text) (h : NEWLINE ∉ text) :
    strchr NEWLINE (text ++ NEWLINE :: more) = some text.length := by
  induction text with
  | nil => rfl
  | cons b text ih =>
      rw [List.mem_cons, not_or] at h hzero
      rw [List.cons_append, strchr, if_neg (Ne.symm hzero.1), if_neg (Ne.symm h.1),
        ih hzero.2 h.2]
      rfl

theorem first_line (text : Text) : NEWLINE ∉ text ∨
    ∃ line more, text = line ++ NEWLINE :: more ∧ NEWLINE ∉ line := by
  by_cases hin : NEWLINE ∈ text
  · obtain ⟨line, more, heq, hline⟩ := List.eq_append_cons_of_mem hin
    exact .inr ⟨line, more, heq, hline⟩
  · exact .inl hin

theorem grepLines_eq {turns : Nat} (hzero : (0 : BitVec 8) ∉ text)
    (hturns : text.length ≤ turns) :
    grepLines pattern turns text =
      (printed pattern (splitLines [] text).1, (splitLines [] text).2) := by
  induction turns generalizing text with
  | zero =>
      rw [List.length_eq_zero_iff.mp (Nat.le_zero.mp hturns)]
      rfl
  | succ turns ih =>
      rw [grepLines]
      rcases first_line text with hnone | ⟨line, more, rfl, hline⟩
      · rw [strchr_none hzero hnone, splitLines_none hnone]
        rfl
      · have hleft : (0 : BitVec 8) ∉ line := fun hin => hzero (List.mem_append_left _ hin)
        have hright : (0 : BitVec 8) ∉ more := fun hin =>
          hzero (List.mem_append_right _ (List.mem_cons_of_mem _ hin))
        have hdrop : (line ++ NEWLINE :: more).drop (line.length + 1) = more := by
          simp
        have hlength : more.length ≤ turns := by
          simp only [List.length_append, List.length_cons] at hturns
          omega
        rw [strchr_line hleft hline, splitLines_line hline]
        simp only [hdrop, ih hright hlength, List.take_left, List.nil_append]
        unfold printed
        rw [List.filter_cons]
        split <;> simp

theorem splitLines_left_eq (h : NEWLINE ∈ text) (line : Text) :
    (splitLines line text).2 = (splitLines [] text).2 := by
  rcases first_line text with hnone | ⟨first, more, rfl, hfirst⟩
  · exact absurd h hnone
  · rw [splitLines_line hfirst, splitLines_line hfirst]

theorem length_splitLines_left (line text : Text) :
    (splitLines line text).2.length ≤ line.length + text.length := by
  induction text generalizing line with
  | nil => exact le_rfl
  | cons b text ih =>
      rw [splitLines, List.length_cons]
      split
      · exact (ih []).trans (by simp; omega)
      · exact (ih _).trans (by simp; omega)

theorem splitLines_left_lt (h : NEWLINE ∈ text) :
    (splitLines [] text).2.length < text.length := by
  rcases first_line text with hnone | ⟨first, more, rfl, hfirst⟩
  · exact absurd h hnone
  · rw [splitLines_line hfirst, List.length_append, List.length_cons]
    have hmore := length_splitLines_left [] more
    rw [List.length_nil] at hmore
    simp only
    omega

theorem splitLines_left_subset (line text : Text) :
    ∀ b ∈ (splitLines line text).2, b ∈ line ++ text := by
  induction text generalizing line with
  | nil => simp [splitLines]
  | cons c text ih =>
      intro b hb
      rw [splitLines] at hb
      split at hb
      · have hin := ih [] b hb
        rw [List.nil_append] at hin
        exact List.mem_append_right _ (List.mem_cons_of_mem c hin)
      · have hin := ih (line ++ [c]) b hb
        rwa [List.append_assoc] at hin

/-- What is left in the buffer after a chunk: without a newline, nothing. -/
def keptAfter (chunk : Text) : Text :=
  if NEWLINE ∈ chunk then (splitLines [] chunk).2 else []

/-- The chunks that `read` may return one after another, with `m` bytes left in the
buffer: each has some bytes, and no more than were asked for. -/
def Fits : List Text → Nat → Prop
  | [], _ => True
  | chunk :: chunks, m => chunk ≠ [] ∧ chunk.length ≤ BUFSIZE - m - 1 ∧ m < BUFSIZE ∧
      Fits chunks (keptAfter chunk).length

/-- The text left in the buffer: no line, and no NUL. -/
structure Leftover (kept : Text) : Prop where
  newline : NEWLINE ∉ kept
  zero : (0 : BitVec 8) ∉ kept

theorem Leftover.after {chunk : Text} (hzero : (0 : BitVec 8) ∉ chunk) :
    Leftover (keptAfter chunk) := by
  unfold keptAfter
  split
  · refine ⟨splitLines_left_none (by simp), fun hin => hzero ?_⟩
    exact splitLines_left_subset [] chunk 0 hin
  · exact ⟨by simp, by simp⟩

theorem grep_cons {chunk : Text} (h : Leftover kept) (hzero : (0 : BitVec 8) ∉ chunk)
    (hfits : Fits (chunk :: chunks) kept.length) :
    grep pattern (chunk :: chunks) kept =
      (grep pattern chunks (keptAfter chunk)).map
        (printed pattern (splitLines kept chunk).1 ++ ·) := by
  obtain ⟨hsome, hlength, hroom, -⟩ := hfits
  have hzeros : (0 : BitVec 8) ∉ kept ++ chunk := fun hin =>
    (List.mem_append.mp hin).elim h.zero hzero
  have hshort : ¬ BUFSIZE ≤ (kept ++ chunk).length := by
    rw [List.length_append]
    omega
  have hkept : (if (splitLines kept chunk).2.length = (kept ++ chunk).length then []
      else (splitLines kept chunk).2) = keptAfter chunk := by
    unfold keptAfter
    by_cases hin : NEWLINE ∈ chunk
    · have hlt := splitLines_left_lt hin
      rw [splitLines_left_eq hin kept, if_pos hin, if_neg]
      rw [List.length_append]
      omega
    · rw [splitLines_none hin, if_neg hin, if_pos rfl]
  rw [grep, if_neg hsome, if_neg hshort]
  simp only [grepLines_eq hzeros le_rfl, ← splitLines_start h.newline, hkept]

theorem printed_append (pattern : Text) (lines more : List Text) :
    printed pattern (lines ++ more) = printed pattern lines ++ printed pattern more := by
  simp [printed]

/-- The output is right where no chunk without a newline stands before one with a
newline. -/
theorem grep_unbroken (h : Leftover kept) (hzero : ∀ chunk ∈ chunks, (0 : BitVec 8) ∉ chunk)
    (hfits : Fits chunks kept.length)
    (hunbroken : chunks.Pairwise fun first later => NEWLINE ∈ later → NEWLINE ∈ first) :
    grep pattern chunks kept = some (printed pattern (splitLines kept chunks.flatten).1) := by
  induction chunks generalizing kept with
  | nil => rfl
  | cons chunk chunks ih =>
      have hfirst := hzero chunk (List.mem_cons_self ..)
      rw [List.pairwise_cons] at hunbroken
      rw [grep_cons h hfirst hfits, List.flatten_cons, splitLines_append, printed_append,
        ih (.after hfirst) (fun c hc => hzero c (List.mem_cons_of_mem _ hc)) hfits.2.2.2
          hunbroken.2]
      by_cases hin : NEWLINE ∈ chunk
      · rw [keptAfter, if_pos hin, splitLines_left_eq hin kept]
        rfl
      · have hnone : NEWLINE ∉ chunks.flatten := by
          intro hlater
          obtain ⟨later, hmem, hnewline⟩ := List.mem_flatten.mp hlater
          exact hin (hunbroken.1 later hmem hnewline)
        rw [splitLines_none hnone, splitLines_none hnone]
        rfl

theorem matchText_nil (text : Text) : matchText [] text = true := by
  cases text with
  | nil => rfl
  | cons t text => rfl

theorem length_printed_nil (line text : Text) :
    (printed [] (splitLines line text).1).length + (splitLines line text).2.length =
      line.length + text.length := by
  induction text generalizing line with
  | nil => simp [splitLines, printed]
  | cons b text ih =>
      rw [splitLines, List.length_cons]
      split
      · have hrest := ih []
        have hcons : printed [] (line :: (splitLines [] text).1) =
            line ++ [NEWLINE] ++ printed [] (splitLines [] text).1 := by
          simp [printed, matchText_nil]
        simp only [hcons, List.length_append, List.length_singleton]
        rw [List.length_nil] at hrest
        omega
      · have hrest := ih (line ++ [b])
        rw [List.length_append, List.length_singleton] at hrest
        omega

theorem grep_nil_le (h : Leftover kept) (hzero : ∀ chunk ∈ chunks, (0 : BitVec 8) ∉ chunk)
    (hfits : Fits chunks kept.length) :
    ∃ out, grep [] chunks kept = some out ∧
      out.length ≤ (printed [] (splitLines kept chunks.flatten).1).length ∧
      (out.length = (printed [] (splitLines kept chunks.flatten).1).length →
        chunks.Pairwise fun first later => NEWLINE ∈ later → NEWLINE ∈ first) := by
  induction chunks generalizing kept with
  | nil => exact ⟨[], rfl, Nat.zero_le _, fun _ => .nil⟩
  | cons chunk chunks ih =>
      have hfirst := hzero chunk (List.mem_cons_self ..)
      obtain ⟨out, hout, hle, hpair⟩ := ih (.after hfirst)
        (fun c hc => hzero c (List.mem_cons_of_mem _ hc)) hfits.2.2.2
      refine ⟨_, by rw [grep_cons h hfirst hfits, hout]; rfl, ?_⟩
      rw [List.flatten_cons, splitLines_append, printed_append, List.length_append,
        List.length_append, List.pairwise_cons]
      by_cases hin : NEWLINE ∈ chunk
      · rw [keptAfter, if_pos hin] at hle hpair
        rw [splitLines_left_eq hin kept]
        exact ⟨by omega, fun heq => ⟨fun _ _ _ => hin, hpair (by omega)⟩⟩
      · rw [keptAfter, if_neg hin] at hle hpair
        rw [splitLines_none hin]
        by_cases hlater : NEWLINE ∈ chunks.flatten
        · -- The text of this chunk is missing.
          have hpositive : 0 < chunk.length := List.length_pos_iff.mpr hfits.1
          have hall := length_printed_nil (kept ++ chunk) chunks.flatten
          have hrest := length_printed_nil [] chunks.flatten
          rw [splitLines_left_eq hlater, List.length_append] at hall
          rw [List.length_nil] at hrest
          dsimp only
          exact ⟨by omega, fun heq => absurd heq (by omega)⟩
        · rw [splitLines_none hlater] at hle hpair ⊢
          refine ⟨by simpa using hle, fun _ => ⟨fun later hmem hnewline => ?_, hpair ?_⟩⟩
          · exact absurd (List.mem_flatten.mpr ⟨later, hmem, hnewline⟩) hlater
          · exact le_antisymm hle (Nat.zero_le _)

/-- The output depends on the bytes only if and only if no chunk without a newline
is followed by one with a newline. -/
theorem grep_expected_iff (chunks : List Text)
    (hzero : ∀ chunk ∈ chunks, (0 : BitVec 8) ∉ chunk) (hfits : Fits chunks 0) :
    (∀ pattern, grep pattern chunks [] = some (expected pattern chunks.flatten)) ↔
      chunks.Pairwise fun first later => NEWLINE ∈ later → NEWLINE ∈ first := by
  have hempty : Leftover [] := ⟨by simp, by simp⟩
  constructor
  · intro hall
    obtain ⟨out, hout, -, hpair⟩ := grep_nil_le hempty hzero hfits
    rw [hall [], Option.some_inj] at hout
    exact hpair (congrArg List.length hout.symm)
  · intro hunbroken pattern
    exact grep_unbroken hempty hzero hfits hunbroken

/-- The second of the lines `a` and `ab` begins in the first chunk. -/
theorem grep_expected_twoChunks :
    grep [97] [[97, NEWLINE, 97], [98, NEWLINE]] [] =
      some (expected [97] [97, NEWLINE, 97, 98, NEWLINE]) :=
  (grep_expected_iff [[97, NEWLINE, 97], [98, NEWLINE]] (by decide)
    (by simp [Fits, keptAfter, splitLines, BUFSIZE])).mpr (by decide) [97]

/-- The line `ab` in the chunks `a` and `b`, newline: the `a` is lost. -/
theorem grep_splits_line :
    grep [97] [[97], [98, NEWLINE]] [] = some [] ∧
      expected [97] [97, 98, NEWLINE] = [97, 98, NEWLINE] := by
  decide

end KernelThreads.Grep
