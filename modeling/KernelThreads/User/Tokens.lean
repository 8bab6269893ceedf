import KernelThreads.Lib.Meets
import KernelThreads.User.Shell
import Mathlib.Data.List.GetD

namespace KernelThreads.Shell

open Lib Program

/-! The tokens of a line, as `gettoken` cuts them. -/

namespace CString

variable {s : CString} {i : Nat}

theorem char_of_lt (h : i < s.length) : s.char i ∈ s.bytes := by
  unfold char
  rw [List.getD_eq_getElem _ _ h]
  exact List.getElem_mem h

theorem char_eq_zero : s.char i = 0 ↔ s.length ≤ i := by
  constructor
  · intro hzero
    by_contra hlt
    exact s.nonzero _ (char_of_lt (not_le.mp hlt)) hzero
  · intro hle
    exact List.getD_eq_default _ _ hle

theorem le_skip (test : Byte → Bool) : i ≤ s.skip test i := Nat.le_add_right ..

theorem skip_le (test : Byte → Bool) (h : i ≤ s.length) : s.skip test i ≤ s.length := by
  have hprefix := (List.takeWhile_prefix test (l := s.bytes.drop i)).length_le
  rw [List.length_drop] at hprefix
  unfold skip
  have hlength : s.bytes.length = s.length := rfl
  omega

theorem skip_of_le (test : Byte → Bool) (h : s.length ≤ i) : s.skip test i = i := by
  unfold skip
  rw [List.drop_eq_nil_of_le h]
  rfl

theorem skip_step (test : Byte → Bool) (h : i < s.length) :
    s.skip test i = if test (s.char i) then s.skip test (i + 1) else i := by
  unfold skip char
  rw [List.drop_eq_getElem_cons h, List.takeWhile_cons, List.getD_eq_getElem _ _ h]
  split
  · rw [List.length_cons]
    omega
  · rfl

theorem skip_spec (test : Byte → Bool) (h : i ≤ s.length) :
    (∀ k, i ≤ k → k < s.skip test i → test (s.char k) = true) ∧
      (s.skip test i < s.length → test (s.char (s.skip test i)) = false) := by
  induction hleft : s.length - i generalizing i with
  | zero =>
      rw [skip_of_le test (by omega)]
      exact ⟨fun k hik hki => by omega, fun hlt => by omega⟩
  | succ left ih =>
      rw [skip_step test (by omega)]
      split
      next htest =>
        obtain ⟨hinside, hstop⟩ := ih (show i + 1 ≤ s.length by omega) (by omega)
        refine ⟨fun k hik hki => ?_, hstop⟩
        by_cases hk : k = i
        · rw [hk]
          exact htest
        · exact hinside k (by omega) hki
      next htest =>
        exact ⟨fun k hik hki => by omega, fun _ => by simpa using htest⟩

theorem skip_idem (test : Byte → Bool) (h : i ≤ s.length) :
    s.skip test (s.skip test i) = s.skip test i := by
  by_cases hlt : s.skip test i < s.length
  · rw [skip_step test hlt, (skip_spec test h).2 hlt]
    rfl
  · exact skip_of_le test (not_lt.mp hlt)

end CString

section Tokens

variable (s : CString)

def tokensFrom : Nat → Nat → List Token
  | 0, _ => []
  | turns + 1, i =>
      if (nextToken s i).1.tok = .eof then []
      else (nextToken s i).1 :: tokensFrom turns (nextToken s i).2

def tokensAt (i : Nat) : List Token := tokensFrom s (s.length - i + 1) i

def tokens : List Token := tokensAt s 0

def headTok : List Token → Tok
  | [] => .eof
  | token :: _ => token.tok

variable {s} {i : Nat}

def Tok.first : Tok → Option Byte
  | .bar => some 124
  | .lparen => some 40
  | .rparen => some 41
  | .semi => some 59
  | .amp => some 38
  | .lt => some 60
  | .gt => some 62
  | .append => some 62
  | _ => none

theorem scan_cases (q : Nat) :
    (s.char q = 0 ∧ scan s q = (.eof, q)) ∨
      (s.char q ∈ symbols ∧ (scan s q).1.first = some (s.char q) ∧
        q < (scan s q).2 ∧ (scan s q).2 ≤ s.length) ∨
      (s.char q ≠ 0 ∧ s.char q ∉ symbols ∧ scan s q = (.word, s.skip inWord q)) := by
  by_cases hzero : s.char q = 0
  · refine .inl ⟨hzero, ?_⟩
    unfold scan
    rw [if_pos hzero]
  have hlt : q < s.length := not_le.mp fun hle => hzero (CString.char_eq_zero.mpr hle)
  refine .inr ?_
  by_cases hsymbol : s.char q ∈ symbols
  · refine .inl ⟨hsymbol, ?_⟩
    simp only [symbols, List.mem_cons, List.not_mem_nil, or_false] at hsymbol
    rcases hsymbol with h | h | h | h | h | h | h
    case inr.inr.inl =>
      by_cases hnext : s.char (q + 1) = 62
      · have hend : q + 1 < s.length := by
          refine not_le.mp fun hle => ?_
          rw [CString.char_eq_zero.mpr hle] at hnext
          contradiction
        have hscan : scan s q = (.append, q + 2) := by
          unfold scan
          rw [h, hnext]
          rfl
        rw [hscan, h]
        exact ⟨rfl, by omega, by omega⟩
      · have hscan : scan s q = (.gt, q + 1) := by
          unfold scan
          rw [h, if_neg hnext]
          rfl
        rw [hscan, h]
        exact ⟨rfl, by omega, by omega⟩
    all_goals
      unfold scan
      rw [h]
      exact ⟨rfl, Nat.lt_succ_self q, hlt⟩
  · refine .inr ⟨hzero, hsymbol, ?_⟩
    simp only [symbols, List.mem_cons, List.not_mem_nil, or_false, not_or] at hsymbol
    obtain ⟨h₁, h₂, h₃, h₄, h₅, h₆, h₇⟩ := hsymbol
    unfold scan
    rw [if_neg hzero, if_neg h₂, if_neg h₆, if_neg h₇, if_neg h₅, if_neg h₄, if_neg h₁,
      if_neg h₃]

theorem scan_eof (q : Nat) : (scan s q).1 = .eof ↔ s.length ≤ q := by
  rw [← CString.char_eq_zero]
  rcases scan_cases (s := s) q with ⟨hzero, hscan⟩ | ⟨hsymbol, hfirst, -⟩ | ⟨hne, -, hscan⟩
  · simp [hzero, hscan]
  · have hne : s.char q ≠ 0 := by
      intro hzero
      rw [hzero] at hsymbol
      revert hsymbol
      decide
    constructor
    · intro heof
      rw [heof] at hfirst
      cases hfirst
    · exact fun hzero => absurd hzero hne
  · rw [hscan]
    constructor
    · intro heof
      cases heof
    · exact fun hzero => absurd hzero hne

theorem scan_first (q : Nat) :
    (scan s q).1.first = if s.char q ∈ symbols then some (s.char q) else none := by
  rcases scan_cases (s := s) q with ⟨hzero, hscan⟩ | ⟨hsymbol, hfirst, -⟩ |
    ⟨-, hsymbol, hscan⟩
  · rw [hscan, if_neg]
    · rfl
    · rw [hzero]
      decide
  · rw [if_pos hsymbol, hfirst]
  · rw [if_neg hsymbol, hscan]
    rfl

theorem scan_next {q : Nat} (hq : q ≤ s.length)
    (hspace : q < s.length → isSpace (s.char q) = false) :
    (scan s q).2 ≤ s.length ∧ ((scan s q).1 ≠ .eof → q < (scan s q).2) := by
  rcases scan_cases (s := s) q with ⟨-, hscan⟩ | ⟨-, -, hlt, hle⟩ | ⟨hne, hsymbol, hscan⟩
  · rw [hscan]
    exact ⟨hq, fun h => absurd rfl h⟩
  · exact ⟨hle, fun _ => hlt⟩
  · rw [hscan]
    refine ⟨CString.skip_le _ hq, fun _ => ?_⟩
    have hlt : q < s.length := not_le.mp fun hle => hne (CString.char_eq_zero.mpr hle)
    have hword : inWord (s.char q) = true := by
      have hnot := hspace hlt
      simp only [isSpace, decide_eq_false_iff_not] at hnot
      simp only [inWord, decide_eq_true_eq]
      exact ⟨hnot, hsymbol⟩
    rw [CString.skip_step _ hlt, hword, if_pos rfl]
    exact CString.le_skip _

theorem nextToken_next (hi : i ≤ s.length) :
    (nextToken s i).2 ≤ s.length ∧
      ((nextToken s i).1.tok ≠ .eof → i < (nextToken s i).2) := by
  have hscan := scan_next (CString.skip_le isSpace hi) (CString.skip_spec isSpace hi).2
  refine ⟨CString.skip_le _ hscan.1, fun hne => ?_⟩
  have hlow : i ≤ s.skip isSpace i := CString.le_skip _
  have hhigh := CString.le_skip (s := s) isSpace (i := (scan s (s.skip isSpace i)).2)
  have hlt := hscan.2 hne
  change i < s.skip isSpace (scan s (s.skip isSpace i)).2
  omega

theorem nextToken_skip (hi : i ≤ s.length) :
    nextToken s (s.skip isSpace i) = nextToken s i := by
  unfold nextToken
  rw [CString.skip_idem _ hi]

theorem tokensFrom_eq {turns : Nat} (hi : i ≤ s.length) (hturns : s.length - i < turns) :
    tokensFrom s turns i = tokensAt s i := by
  unfold tokensAt
  induction turns using Nat.strong_induction_on generalizing i with
  | _ turns ih =>
      obtain ⟨more, rfl⟩ := Nat.exists_eq_add_of_lt hturns
      simp only [tokensFrom]
      split
      · rfl
      next hne =>
        obtain ⟨hle, hlt⟩ := nextToken_next hi
        have hlt := hlt hne
        have hfirst := ih (s.length - i + more) (by omega) hle (by omega)
        by_cases hmore : more = 0
        · rw [hmore]
          rfl
        · have hsecond := ih (s.length - i) (by omega) hle (by omega)
          rw [hfirst, hsecond]

theorem tokensAt_eq (hi : i ≤ s.length) :
    tokensAt s i = if (nextToken s i).1.tok = .eof then []
      else (nextToken s i).1 :: tokensAt s (nextToken s i).2 := by
  have hunfold : tokensAt s i = if (nextToken s i).1.tok = .eof then []
      else (nextToken s i).1 :: tokensFrom s (s.length - i) (nextToken s i).2 := rfl
  rw [hunfold]
  split
  · rfl
  next hne =>
    obtain ⟨hle, hlt⟩ := nextToken_next hi
    have hlt := hlt hne
    rw [tokensFrom_eq hle (by omega)]

theorem tokensAt_skip (hi : i ≤ s.length) :
    tokensAt s (s.skip isSpace i) = tokensAt s i := by
  rw [tokensAt_eq (CString.skip_le _ hi), nextToken_skip hi, ← tokensAt_eq hi]

theorem headTok_tokensAt (hi : i ≤ s.length) :
    headTok (tokensAt s i) = (nextToken s i).1.tok := by
  rw [tokensAt_eq hi]
  split
  next heof => exact heof.symm
  next => rfl

theorem length_tokensAt (hi : i ≤ s.length) : (tokensAt s i).length ≤ s.length - i := by
  induction hleft : s.length - i using Nat.strong_induction_on generalizing i with
  | _ left ih =>
      rw [tokensAt_eq hi]
      split
      · exact Nat.zero_le _
      next hne =>
        obtain ⟨hle, hlt⟩ := nextToken_next hi
        have hlt := hlt hne
        have hrest := ih (s.length - (nextToken s i).2) (by omega) hle rfl
        rw [List.length_cons]
        omega

theorem gettoken_run (i : Nat) :
    gettoken s i = .ok ((nextToken s i).1, (nextToken s i).2) := rfl

theorem gettoken_cons {token : Token} {rest : List Token} (hi : i ≤ s.length)
    (h : tokensAt s i = token :: rest) :
    ∃ j, gettoken s i = .ok (token, j) ∧ j ≤ s.length ∧ tokensAt s j = rest := by
  rw [tokensAt_eq hi] at h
  split at h
  · cases h
  · obtain ⟨rfl, rfl⟩ := List.cons.inj h
    exact ⟨_, gettoken_run i, (nextToken_next hi).1, rfl⟩

theorem gettoken_nil (hi : i ≤ s.length) (h : tokensAt s i = []) :
    ∃ token j, gettoken s i = .ok (token, j) ∧ token.tok = .eof ∧ j ≤ s.length ∧
      tokensAt s j = [] := by
  have heof := headTok_tokensAt hi
  rw [h] at heof
  refine ⟨_, _, gettoken_run i, heof.symm, (nextToken_next hi).1, ?_⟩
  have hend : s.length ≤ s.skip isSpace i := (scan_eof _).mp heof.symm
  have hscan : scan s (s.skip isSpace i) = (.eof, s.skip isSpace i) := by
    rcases scan_cases (s := s) (s.skip isSpace i) with ⟨-, hscan⟩ | ⟨-, -, hlt, hle⟩ |
      ⟨hne, -⟩
    · exact hscan
    · omega
    · exact absurd (CString.char_eq_zero.mpr hend) hne
  have hnext : (nextToken s i).2 = s.skip isSpace i := by
    change s.skip isSpace (scan s (s.skip isSpace i)).2 = _
    rw [hscan]
    exact CString.skip_idem _ hi
  rw [hnext, tokensAt_skip hi, h]

theorem peek_run {toks : List Byte} (hi : i ≤ s.length)
    (hsymbols : ∀ c ∈ toks, c ∈ symbols) :
    ∃ j, peek s toks i =
        .ok ((headTok (tokensAt s i)).first.any (· ∈ toks), j) ∧
      j ≤ s.length ∧ tokensAt s j = tokensAt s i := by
  refine ⟨s.skip isSpace i, ?_, CString.skip_le _ hi, tokensAt_skip hi⟩
  have hvalue : decide (s.char (s.skip isSpace i) ≠ 0 ∧
      s.char (s.skip isSpace i) ∈ toks) =
        (headTok (tokensAt s i)).first.any (· ∈ toks) := by
    rw [headTok_tokensAt hi]
    change _ = (scan s (s.skip isSpace i)).1.first.any (· ∈ toks)
    rw [scan_first]
    generalize s.char (s.skip isSpace i) = c
    by_cases hc : c ∈ symbols
    · have hne : c ≠ 0 := by
        rintro rfl
        revert hc
        decide
      rw [if_pos hc, Option.any_some, decide_eq_decide]
      exact ⟨fun h => h.2, fun h => ⟨hne, h⟩⟩
    · have hnot : c ∉ toks := fun hin => hc (hsymbols c hin)
      simp [hc, hnot]
  rw [← hvalue]
  rfl

end Tokens

end KernelThreads.Shell
