import KernelThreads.User.Tokens

namespace KernelThreads.Shell

open Lib Program

/-! The grammar of command lines, and that `parsecmd` accepts it.

    line  := pipe '&'* [';' line]
    pipe  := exec ['|' pipe]
    exec  := '(' line ')' redir* | redir* (word redir*)*
    redir := ('<' | '>' | '>>') word                         -/

def Tok.redir (tok : Tok) (file : Arg) : Option Redir :=
  match tok with
  | .lt => some ⟨file, O_RDONLY, 0⟩
  | .gt | .append => some ⟨file, O_WRONLY ||| O_CREATE, 1⟩
  | _ => none

inductive Redirs : List Token → List Redir → Prop
  | nil : Redirs [] []
  | cons {op file : Token} {redir : Redir} {ts : List Token} {redirs : List Redir} :
      op.tok.redir file.arg = some redir → file.tok = .word → Redirs ts redirs →
        Redirs (op :: file :: ts) (redir :: redirs)

inductive Args : List Token → List Arg → List Redir → Prop
  | nil : Args [] [] []
  | cons {word : Token} {ts more : List Token} {args : List Arg}
      {redirs later : List Redir} :
      word.tok = .word → Redirs ts redirs → Args more args later →
        Args (word :: ts ++ more) (word.arg :: args) (redirs ++ later)

inductive Backs : List Token → Cmd → Cmd → Prop
  | nil {cmd : Cmd} : Backs [] cmd cmd
  | cons {amp : Token} {ts : List Token} {cmd last : Cmd} :
      amp.tok = .amp → Backs ts (.back cmd) last → Backs (amp :: ts) cmd last

def argvOf (args : List Arg) : Argv := fun k => args[k.val]?

mutual

inductive Line : List Token → Cmd → Prop
  | last {ts backs : List Token} {cmd all : Cmd} :
      Pipe ts cmd → Backs backs cmd all → Line (ts ++ backs) all
  | semi {ts backs more : List Token} {cmd all rest : Cmd} {semi : Token} :
      Pipe ts cmd → Backs backs cmd all → semi.tok = .semi → Line more rest →
        Line (ts ++ (backs ++ semi :: more)) (.list all rest)

inductive Pipe : List Token → Cmd → Prop
  | last {ts : List Token} {cmd : Cmd} : Exec ts cmd → Pipe ts cmd
  | bar {ts more : List Token} {cmd rest : Cmd} {bar : Token} :
      Exec ts cmd → bar.tok = .bar → Pipe more rest →
        Pipe (ts ++ bar :: more) (.pipe cmd rest)

inductive Exec : List Token → Cmd → Prop
  | block {ts more : List Token} {cmd : Cmd} {redirs : List Redir}
      {lparen rparen : Token} :
      lparen.tok = .lparen → Line ts cmd → rparen.tok = .rparen → Redirs more redirs →
        Exec (lparen :: (ts ++ rparen :: more)) (wrap cmd redirs)
  | words {ts more : List Token} {args : List Arg} {redirs later : List Redir} :
      Redirs ts redirs → Args more args later → args.length ≤ MAXARGS - 1 →
        Exec (ts ++ more) (wrap (.exec (argvOf args)) (redirs ++ later))

end

section Sound

variable {s : CString} {i : Nat}

def Panics (stop : ShellStop) : Prop := stop ≠ .outOfBounds ∧ stop ≠ .outOfFuel

/-- The tokens from `i` to `j` make up what the predicate says. -/
def Reads (s : CString) (i j : Nat) (P : List Token → Prop) : Prop :=
  j ≤ s.length ∧ ∃ ts, tokensAt s i = ts ++ tokensAt s j ∧ P ts

theorem meets_peek {toks : List Byte} (hi : i ≤ s.length)
    (hsymbols : ∀ c ∈ toks, c ∈ symbols) :
    Meets (peek s toks) Panics i fun seen j => j ≤ s.length ∧
      tokensAt s j = tokensAt s i ∧
        seen = (headTok (tokensAt s i)).first.any (· ∈ toks) := by
  obtain ⟨j, hrun, hj, htokens⟩ := peek_run hi hsymbols
  exact Meets.of_ok hrun ⟨hj, htokens, rfl⟩

theorem meets_gettoken (hi : i ≤ s.length) :
    Meets (gettoken s) Panics i fun token j => j ≤ s.length ∧
      ((token.tok = .eof ∧ tokensAt s i = [] ∧ tokensAt s j = []) ∨
        tokensAt s i = token :: tokensAt s j) := by
  cases htokens : tokensAt s i with
  | nil =>
      obtain ⟨token, j, hrun, heof, hj, hnil⟩ := gettoken_nil hi htokens
      exact Meets.of_ok hrun ⟨hj, .inl ⟨heof, rfl, hnil⟩⟩
  | cons token rest =>
      obtain ⟨j, hrun, hj, hrest⟩ := gettoken_cons hi htokens
      refine Meets.of_ok hrun ⟨hj, .inr ?_⟩
      rw [hrest]

theorem meets_gettoken_seen {toks : List Byte} (hi : i ≤ s.length)
    (hseen : (headTok (tokensAt s i)).first.any (· ∈ toks) = true) :
    Meets (gettoken s) Panics i fun token j => j ≤ s.length ∧
      tokensAt s i = token :: tokensAt s j ∧ token.tok.first.any (· ∈ toks) = true := by
  refine (meets_gettoken hi).weaken ?_
  intro token j ⟨hj, hcase⟩
  rcases hcase with ⟨-, hnil, -⟩ | hcons
  · rw [hnil] at hseen
    cases hseen
  · rw [hcons] at hseen
    exact ⟨hj, hcons, hseen⟩

theorem addRedir_eq {redirs : List Redir} {tok : Tok} {file : Arg} {redir : Redir}
    (h : tok.redir file = some redir) : addRedir redirs tok file = redirs ++ [redir] := by
  cases tok <;> simp_all [Tok.redir, addRedir]

theorem redir_of_first {tok : Tok} (file : Arg)
    (h : tok.first.any (· ∈ ([60, 62] : List Byte)) = true) :
    ∃ redir, tok.redir file = some redir := by
  cases tok <;> first | exact ⟨_, rfl⟩ | exact absurd h (by decide)

theorem meets_parseredirs {turns : Nat} {redirs : List Redir} (hi : i ≤ s.length)
    (hturns : (tokensAt s i).length < turns) :
    Meets (parseredirs s turns redirs) Panics i fun all j =>
      Reads s i j fun ts => ∃ more, Redirs ts more ∧ all = redirs ++ more := by
  induction turns generalizing i redirs with
  | zero => omega
  | succ turns ih =>
      refine Meets.bind (meets_peek hi (by decide)) ?_
      rintro seen j ⟨hj, htokens, rfl⟩
      rw [← htokens] at hturns
      split
      next hseen =>
        rw [← htokens] at hseen
        refine Meets.bind (meets_gettoken_seen hj hseen) ?_
        intro op k ⟨hk, hop, hfirst⟩
        refine Meets.bind (meets_gettoken hk) ?_
        intro file l ⟨hl, hcase⟩
        split
        next hword =>
          rcases hcase with ⟨heof, -⟩ | hfile
          · rw [heof] at hword
            cases hword
          · obtain ⟨redir, hredir⟩ := redir_of_first file.arg hfirst
            rw [hop, hfile, List.length_cons, List.length_cons] at hturns
            refine (ih hl (by omega)).weaken ?_
            intro all m ⟨hm, ts, hts, more, hmore, hall⟩
            refine ⟨hm, op :: file :: ts, ?_, redir :: more, .cons hredir hword hmore, ?_⟩
            · rw [← htokens, hop, hfile, hts]
              rfl
            · rw [hall, addRedir_eq hredir, List.append_assoc]
              rfl
        next => exact Meets.throw ⟨by decide, by decide⟩
      next => exact Meets.pure ⟨hj, [], htokens.symm, [], .nil, (List.append_nil _).symm⟩

theorem argvOf_end (args : List Arg) (h : args.length < MAXARGS) :
    Function.update (argvOf args) ⟨args.length, h⟩ none = argvOf args := by
  refine Function.update_eq_self_iff.mpr ?_
  exact (List.getElem?_eq_none le_rfl).symm

theorem argvOf_snoc (args : List Arg) (arg : Arg) (h : args.length < MAXARGS) :
    Function.update (argvOf args) ⟨args.length, h⟩ (some arg) = argvOf (args ++ [arg]) := by
  funext k
  rw [Function.update_apply]
  unfold argvOf
  split
  next heq => simp [heq]
  next hne =>
    have hk : k.val ≠ args.length := fun heq => hne (Fin.ext heq)
    by_cases hlt : k.val < args.length
    · rw [List.getElem?_append_left hlt]
    · rw [List.getElem?_eq_none (by omega), List.getElem?_eq_none]
      rw [List.length_append, List.length_singleton]
      omega

theorem setArg_run {args : List Arg} (h : args.length < MAXARGS) (arg : Option Arg) :
    setArg (argvOf args) args.length arg i =
      .ok (Function.update (argvOf args) ⟨args.length, h⟩ arg, i) := by
  unfold setArg
  rw [dif_pos h]
  rfl

theorem meets_parseargs {turns : Nat} {args : List Arg} {redirs : List Redir}
    (hi : i ≤ s.length) (hturns : (tokensAt s i).length < turns)
    (hargs : args.length < MAXARGS) :
    Meets (parseargs s turns (argvOf args) args.length redirs) Panics i fun cmd j =>
      Reads s i j fun ts => ∃ more later, Args ts more later ∧
        (args ++ more).length ≤ MAXARGS - 1 ∧
          cmd = wrap (.exec (argvOf (args ++ more))) (redirs ++ later) := by
  induction turns generalizing i args redirs with
  | zero => omega
  | succ turns ih =>
      refine Meets.bind (meets_peek hi (by decide)) ?_
      rintro seen j ⟨hj, htokens, -⟩
      rw [← htokens] at hturns
      split
      · refine Meets.bind_ok (setArg_run hargs none) (Meets.pure ⟨hj, [], htokens.symm, [],
          [], .nil, ?_, ?_⟩)
        · rw [List.append_nil]
          omega
        · rw [argvOf_end, List.append_nil, List.append_nil]
      · refine Meets.bind (meets_gettoken hj) ?_
        intro token k ⟨hk, hcase⟩
        split
        next heof =>
          have hnil : tokensAt s j = [] ∧ tokensAt s k = [] := by
            rcases hcase with ⟨-, hnil⟩ | hcons
            · exact hnil
            · have hhead := headTok_tokensAt hj
              rw [tokensAt_eq hj] at hcons
              split at hcons
              · cases hcons
              next hne =>
                obtain ⟨rfl, -⟩ := List.cons.inj hcons
                exact absurd heof hne
          refine Meets.bind_ok (setArg_run hargs none) (Meets.pure ⟨hk, [], ?_, [],
            [], .nil, ?_, ?_⟩)
          · rw [← htokens, hnil.1, hnil.2]
            rfl
          · rw [List.append_nil]
            omega
          · rw [argvOf_end, List.append_nil, List.append_nil]
        next hne =>
          split
          next hword =>
            rcases hcase with ⟨heof, -⟩ | hcons
            · exact absurd heof hne
            rw [hcons, List.length_cons] at hturns
            refine Meets.bind_ok (setArg_run hargs _) ?_
            rw [argvOf_snoc]
            split
            · exact Meets.throw ⟨by decide, by decide⟩
            next hroom =>
              have hlength := length_tokensAt hk
              refine Meets.bind (meets_parseredirs hk (by omega)) ?_
              rintro _ l ⟨hl, ts, hts, found, hfound, rfl⟩
              have hargs' : (args ++ [token.arg]).length < MAXARGS := by
                rw [List.length_append, List.length_singleton]
                omega
              have hturns' : (tokensAt s l).length < turns := by
                rw [hts, List.length_append] at hturns
                omega
              have hcount : (args ++ [token.arg]).length = args.length + 1 := by
                rw [List.length_append, List.length_singleton]
              rw [← hcount]
              refine (ih hl hturns' hargs').weaken ?_
              rintro cmd m ⟨hm, us, hus, more, later, hmore, hcount, rfl⟩
              refine ⟨hm, token :: ts ++ us, ?_, token.arg :: more, found ++ later,
                .cons hword hfound hmore, ?_, ?_⟩
              · rw [← htokens, hcons, hts, hus]
                simp
              · rw [List.append_assoc] at hcount
                exact hcount
              · rw [List.append_assoc, List.append_assoc]
                rfl
          next => exact Meets.throw ⟨by decide, by decide⟩

theorem meets_parsebacks {turns : Nat} {cmd : Cmd} (hi : i ≤ s.length)
    (hturns : (tokensAt s i).length < turns) :
    Meets (parsebacks s turns cmd) Panics i fun all j =>
      Reads s i j fun ts => Backs ts cmd all := by
  induction turns generalizing i cmd with
  | zero => omega
  | succ turns ih =>
      refine Meets.bind (meets_peek hi (by decide)) ?_
      rintro seen j ⟨hj, htokens, rfl⟩
      rw [← htokens] at hturns
      split
      next hseen =>
        rw [← htokens] at hseen
        refine Meets.bind (meets_gettoken_seen hj hseen) ?_
        intro amp k ⟨hk, hcons, hfirst⟩
        have hamp : amp.tok = .amp := by
          revert hfirst
          cases amp.tok <;> decide
        rw [hcons, List.length_cons] at hturns
        refine (ih hk (by omega)).weaken ?_
        intro all l ⟨hl, ts, hts, hbacks⟩
        refine ⟨hl, amp :: ts, ?_, .cons hamp hbacks⟩
        rw [← htokens, hcons, hts]
        rfl
      next => exact Meets.pure ⟨hj, [], htokens.symm, .nil⟩

/-- What each of the four functions reads; the fuel is enough for the tokens that
are left. -/
theorem meets_parse (s : CString) (fuel : Nat) :
    (∀ i, i ≤ s.length → 4 * (tokensAt s i).length + 4 ≤ fuel →
      Meets (parseline s fuel) Panics i fun cmd j => Reads s i j fun ts => Line ts cmd) ∧
    (∀ i, i ≤ s.length → 4 * (tokensAt s i).length + 3 ≤ fuel →
      Meets (parsepipe s fuel) Panics i fun cmd j => Reads s i j fun ts => Pipe ts cmd) ∧
    (∀ i, i ≤ s.length → 4 * (tokensAt s i).length + 2 ≤ fuel →
      Meets (parseexec s fuel) Panics i fun cmd j => Reads s i j fun ts => Exec ts cmd) ∧
    ∀ i, i ≤ s.length → 4 * (tokensAt s i).length + 1 ≤ fuel →
      Meets (parseblock s fuel) Panics i fun cmd j =>
        Reads s i j fun ts => Exec ts cmd := by
  induction fuel with
  | zero => exact ⟨by omega, by omega, by omega, by omega⟩
  | succ fuel ih =>
      obtain ⟨hline, hpipe, hexec, hblock⟩ := ih
      refine ⟨?_, ?_, ?_, ?_⟩
      · intro i hi hfuel
        refine Meets.bind (hpipe i hi (by omega)) ?_
        intro cmd j ⟨hj, ts, hts, hcmd⟩
        rw [hts, List.length_append] at hfuel
        have hlength := length_tokensAt hj
        refine Meets.bind (meets_parsebacks hj (by omega)) ?_
        intro all k ⟨hk, backs, hbacks, hall⟩
        rw [hbacks, List.length_append] at hfuel
        refine Meets.bind (meets_peek hk (by decide)) ?_
        rintro seen l ⟨hl, htokens, rfl⟩
        split
        next hseen =>
          rw [← htokens] at hseen
          refine Meets.bind (meets_gettoken_seen hl hseen) ?_
          intro semi m ⟨hm, hcons, hfirst⟩
          have hsemi : semi.tok = .semi := by
            revert hfirst
            cases semi.tok <;> decide
          rw [← htokens, hcons, List.length_cons] at hfuel
          refine Meets.bind (hline m hm (by omega)) ?_
          intro rest n ⟨hn, more, hmore, hrest⟩
          refine Meets.pure ⟨hn, ts ++ (backs ++ semi :: more), ?_,
            .semi hcmd hall hsemi hrest⟩
          rw [hts, hbacks, ← htokens, hcons, hmore]
          simp
        next =>
          refine Meets.pure ⟨hl, ts ++ backs, ?_, .last hcmd hall⟩
          rw [hts, hbacks, htokens, List.append_assoc]
      · intro i hi hfuel
        refine Meets.bind (hexec i hi (by omega)) ?_
        intro cmd j ⟨hj, ts, hts, hcmd⟩
        rw [hts, List.length_append] at hfuel
        refine Meets.bind (meets_peek hj (by decide)) ?_
        rintro seen k ⟨hk, htokens, rfl⟩
        split
        next hseen =>
          rw [← htokens] at hseen
          refine Meets.bind (meets_gettoken_seen hk hseen) ?_
          intro bar l ⟨hl, hcons, hfirst⟩
          have hbar : bar.tok = .bar := by
            revert hfirst
            cases bar.tok <;> decide
          rw [← htokens, hcons, List.length_cons] at hfuel
          refine Meets.bind (hpipe l hl (by omega)) ?_
          intro rest m ⟨hm, more, hmore, hrest⟩
          refine Meets.pure ⟨hm, ts ++ bar :: more, ?_, .bar hcmd hbar hrest⟩
          rw [hts, ← htokens, hcons, hmore]
          simp
        next =>
          refine Meets.pure ⟨hk, ts, ?_, .last hcmd⟩
          rw [hts, htokens]
      · intro i hi hfuel
        refine Meets.bind (meets_peek hi (by decide)) ?_
        rintro seen j ⟨hj, htokens, rfl⟩
        split
        · refine (hblock j hj (by rw [htokens]; omega)).weaken ?_
          intro cmd k ⟨hk, ts, hts, hcmd⟩
          exact ⟨hk, ts, htokens ▸ hts, hcmd⟩
        · have hlength := length_tokensAt hj
          refine Meets.bind (meets_parseredirs hj (by omega)) ?_
          intro redirs k ⟨hk, ts, hts, found, hfound, hredirs⟩
          rw [hredirs]
          have hlength' := length_tokensAt hk
          have hwords : Meets (parseargs s (s.length + 1) (argvOf [])
              ([] : List Arg).length ([] ++ found)) Panics k _ :=
            meets_parseargs hk (by omega) (by decide)
          refine hwords.weaken ?_
          rintro cmd l ⟨hl, us, hus, more, later, hmore, hcount, rfl⟩
          refine ⟨hl, ts ++ us, ?_, .words hfound hmore hcount⟩
          rw [← htokens, hts, hus, List.append_assoc]
      · intro i hi hfuel
        refine Meets.bind (meets_peek hi (by decide)) ?_
        rintro seen j ⟨hj, htokens, rfl⟩
        split
        next hseen =>
          rw [← htokens] at hseen hfuel
          refine Meets.bind (meets_gettoken_seen hj hseen) ?_
          intro lparen k ⟨hk, hcons, hfirst⟩
          have hlparen : lparen.tok = .lparen := by
            revert hfirst
            cases lparen.tok <;> decide
          rw [hcons, List.length_cons] at hfuel
          refine Meets.bind (hline k hk (by omega)) ?_
          intro cmd l ⟨hl, ts, hts, hcmd⟩
          refine Meets.bind (meets_peek hl (by decide)) ?_
          rintro seen m ⟨hm, htokens', rfl⟩
          split
          next hseen =>
            rw [← htokens'] at hseen
            refine Meets.bind (meets_gettoken_seen hm hseen) ?_
            intro rparen n ⟨hn, hcons', hfirst⟩
            have hrparen : rparen.tok = .rparen := by
              revert hfirst
              cases rparen.tok <;> decide
            have hlength := length_tokensAt hn
            refine Meets.bind (meets_parseredirs hn (by omega)) ?_
            rintro _ o ⟨ho, us, hus, found, hfound, rfl⟩
            refine Meets.pure ⟨ho, lparen :: (ts ++ rparen :: us), ?_,
              .block hlparen hcmd hrparen hfound⟩
            rw [← htokens, hcons, hts, ← htokens', hcons', hus]
            simp
          next => exact Meets.throw ⟨by decide, by decide⟩
        next => exact Meets.throw ⟨by decide, by decide⟩

end Sound

section Complete

variable {s : CString} {i : Nat} {rest : List Token}

def lineEnd : List Tok := [.rparen, .eof]
def pipeEnd : List Tok := .amp :: .semi :: lineEnd
def execEnd : List Tok := .bar :: pipeEnd

/-- A program reads the tokens up to `rest` and returns `value`. -/
def Parses {α : Type} (s : CString) (program : Parser α) (i : Nat) (value : α)
    (rest : List Token) : Prop :=
  ∃ j, program i = .ok (value, j) ∧ j ≤ s.length ∧ tokensAt s j = rest

theorem Parses.bind {α β : Type} {program : Parser α} {next : α → Parser β} {value : α}
    {result : β} {last : List Token} (h : Parses s program i value rest)
    (hnext : ∀ j, j ≤ s.length → tokensAt s j = rest →
      Parses s (next value) j result last) :
    Parses s (program >>= next) i result last := by
  obtain ⟨j, hrun, hj, htokens⟩ := h
  obtain ⟨k, hrun', hk, htokens'⟩ := hnext j hj htokens
  exact ⟨k, (bind_of_ok hrun).trans hrun', hk, htokens'⟩

theorem Parses.pure {α : Type} {value : α} (hi : i ≤ s.length)
    (h : tokensAt s i = rest) : Parses s (Pure.pure value) i value rest :=
  ⟨i, rfl, hi, h⟩

theorem parses_peek {toks : List Byte} {value : Bool} (hi : i ≤ s.length)
    (h : tokensAt s i = rest) (hsymbols : ∀ c ∈ toks, c ∈ symbols)
    (hvalue : (headTok rest).first.any (· ∈ toks) = value) :
    Parses s (peek s toks) i value rest := by
  obtain ⟨j, hrun, hj, htokens⟩ := peek_run hi hsymbols
  rw [h, hvalue] at hrun
  exact ⟨j, hrun, hj, htokens.trans h⟩

theorem parses_gettoken {token : Token} (hi : i ≤ s.length)
    (h : tokensAt s i = token :: rest) : Parses s (gettoken s) i token rest :=
  gettoken_cons hi h

theorem parses_setArg {args : List Arg} (hi : i ≤ s.length) (h : tokensAt s i = rest)
    (hargs : args.length < MAXARGS) (arg : Option Arg) :
    Parses s (setArg (argvOf args) args.length arg) i
      (Function.update (argvOf args) ⟨args.length, hargs⟩ arg) rest :=
  ⟨i, setArg_run hargs arg, hi, h⟩

theorem enough_turns {ts : List Token} (hi : i ≤ s.length)
    (h : tokensAt s i = ts ++ rest) : ts.length < s.length + 1 := by
  have hlength := length_tokensAt hi
  rw [h, List.length_append] at hlength
  omega

theorem Redirs.head {ts : List Token} {redirs : List Redir} (h : Redirs ts redirs)
    (rest : List Token) :
    headTok (ts ++ rest) ∈ [Tok.lt, .gt, .append] ∨ ts = [] := by
  cases h with
  | nil => exact .inr rfl
  | @cons op file redir _ _ hop =>
      refine .inl ?_
      change op.tok ∈ _
      revert hop
      cases op.tok <;> simp [Tok.redir]

theorem Args.head {ts : List Token} {args : List Arg} {redirs : List Redir}
    (h : Args ts args redirs) (rest : List Token) :
    headTok (ts ++ rest) = .word ∨ ts = [] := by
  cases h with
  | nil => exact .inr rfl
  | cons hword => exact .inl hword

theorem Redirs.parses {ts : List Token} {redirs : List Redir} (h : Redirs ts redirs)
    {turns : Nat} {found : List Redir} (hi : i ≤ s.length)
    (htokens : tokensAt s i = ts ++ rest)
    (hend : (headTok rest).first.any (· ∈ ([60, 62] : List Byte)) = false)
    (hturns : ts.length < turns) :
    Parses s (parseredirs s turns found) i (found ++ redirs) rest := by
  induction h generalizing i turns found with
  | nil =>
      obtain ⟨turns, rfl⟩ := Nat.exists_eq_succ_of_ne_zero (by omega : turns ≠ 0)
      refine (parses_peek hi htokens (by decide) hend).bind fun j hj htokens => ?_
      rw [List.append_nil]
      exact .pure hj htokens
  | @cons op file redir ts redirs hop hfile _ ih =>
      obtain ⟨turns, rfl⟩ := Nat.exists_eq_succ_of_ne_zero (by omega : turns ≠ 0)
      have hseen : op.tok.first.any (· ∈ ([60, 62] : List Byte)) = true := by
        revert hop
        cases op.tok <;> simp [Tok.redir, Tok.first]
      refine (parses_peek hi htokens (by decide) hseen).bind fun j hj htokens => ?_
      refine (parses_gettoken hj htokens).bind fun k hk htokens => ?_
      refine (parses_gettoken hk htokens).bind fun l hl htokens => ?_
      rw [if_pos hfile, addRedir_eq hop, List.append_cons found redir redirs]
      refine ih hl htokens ?_
      simp only [List.length_cons] at hturns
      omega

theorem headTok_first {toks : List Tok} {bytes : List Byte}
    (h : headTok rest ∈ toks)
    (hnone : ∀ tok ∈ toks, tok.first.any (· ∈ bytes) = false) :
    (headTok rest).first.any (· ∈ bytes) = false := hnone _ h

theorem Args.parses {ts : List Token} {more : List Arg} {later : List Redir}
    (h : Args ts more later) {turns : Nat} {args : List Arg} {redirs : List Redir}
    (hi : i ≤ s.length) (htokens : tokensAt s i = ts ++ rest)
    (hend : headTok rest ∈ execEnd) (hturns : ts.length < turns)
    (hcount : (args ++ more).length ≤ MAXARGS - 1) :
    Parses s (parseargs s turns (argvOf args) args.length redirs) i
      (wrap (.exec (argvOf (args ++ more))) (redirs ++ later)) rest := by
  induction h generalizing i turns args redirs with
  | nil =>
      obtain ⟨turns, rfl⟩ := Nat.exists_eq_succ_of_ne_zero (by omega : turns ≠ 0)
      rw [List.append_nil] at hcount
      have hargs : args.length < MAXARGS := lt_of_le_of_lt hcount (by decide)
      simp only [List.append_nil]
      have hfinish : ∀ k, k ≤ s.length → tokensAt s k = rest →
          Parses s (do return wrap (.exec (← setArg (argvOf args) args.length none)) redirs)
            k (wrap (.exec (argvOf args)) redirs) rest := by
        intro k hk htokens
        refine (parses_setArg hk htokens hargs none).bind fun l hl htokens => ?_
        rw [argvOf_end]
        exact .pure hl htokens
      by_cases heof : headTok rest = .eof
      · have hnil : rest = [] := by
          cases rest with
          | nil => rfl
          | cons token rest =>
              exfalso
              rw [List.nil_append, tokensAt_eq hi] at htokens
              split at htokens
              · cases htokens
              next hne =>
                obtain ⟨rfl, -⟩ := List.cons.inj htokens
                exact hne heof
        subst hnil
        refine (parses_peek hi htokens (by decide) rfl).bind fun j hj htokens => ?_
        obtain ⟨token, k, hrun, htok, hk, hrest⟩ := gettoken_nil hj htokens
        have hget : Parses s (gettoken s) j token [] := ⟨k, hrun, hk, hrest⟩
        refine hget.bind fun l hl htokens => ?_
        rw [if_pos htok]
        exact hfinish l hl htokens
      · have hseen : (headTok rest).first.any
            (· ∈ ([124, 41, 38, 59] : List Byte)) = true := by
          revert hend heof
          cases headTok rest <;> decide
        refine (parses_peek hi htokens (by decide) hseen).bind fun j hj htokens => ?_
        exact hfinish j hj htokens
  | @cons word ts more args' found later hword hredirs hmore ih =>
      obtain ⟨turns, rfl⟩ := Nat.exists_eq_succ_of_ne_zero (by omega : turns ≠ 0)
      simp only [List.length_append, List.length_cons] at hturns hcount
      have hargs : args.length < MAXARGS := by omega
      rw [List.cons_append, List.cons_append, List.append_assoc] at htokens
      have hhidden : word.tok.first.any (· ∈ ([124, 41, 38, 59] : List Byte)) = false := by
        rw [hword]
        rfl
      refine (parses_peek hi htokens (by decide) hhidden).bind fun j hj htokens => ?_
      refine (parses_gettoken hj htokens).bind fun k hk htokens => ?_
      have hne : word.tok ≠ .eof := by
        rw [hword]
        decide
      rw [if_neg hne, if_pos hword]
      refine (parses_setArg hk htokens hargs _).bind fun l hl htokens => ?_
      rw [argvOf_snoc, if_neg (by omega)]
      -- The redirections end at the next word or at the end of the command.
      have hstop : (headTok (more ++ rest)).first.any (· ∈ ([60, 62] : List Byte)) =
          false := by
        rcases hmore.head rest with hhead | hnil
        · rw [hhead]
          rfl
        · rw [hnil, List.nil_append]
          exact headTok_first hend (by decide)
      refine (hredirs.parses hl htokens hstop (enough_turns hl htokens)).bind fun m hm htokens => ?_
      have hlong : (args ++ [word.arg]).length = args.length + 1 := by
        rw [List.length_append, List.length_singleton]
      rw [← hlong, List.append_cons args word.arg args', ← List.append_assoc]
      have hfewer : more.length < turns := by omega
      refine ih hm htokens hfewer ?_
      rw [List.length_append, hlong]
      omega

theorem Backs.parses {ts : List Token} {cmd all : Cmd} (h : Backs ts cmd all)
    {turns : Nat} (hi : i ≤ s.length) (htokens : tokensAt s i = ts ++ rest)
    (hend : headTok rest ≠ .amp) (hturns : ts.length < turns) :
    Parses s (parsebacks s turns cmd) i all rest := by
  induction h generalizing i turns with
  | nil =>
      obtain ⟨turns, rfl⟩ := Nat.exists_eq_succ_of_ne_zero (by omega : turns ≠ 0)
      have hhidden : (headTok rest).first.any (· ∈ ([38] : List Byte)) = false := by
        revert hend
        cases headTok rest <;> decide
      refine (parses_peek hi htokens (by decide) hhidden).bind fun j hj htokens => ?_
      exact .pure hj htokens
  | @cons amp ts cmd last hamp _ ih =>
      obtain ⟨turns, rfl⟩ := Nat.exists_eq_succ_of_ne_zero (by omega : turns ≠ 0)
      have hseen : amp.tok.first.any (· ∈ ([38] : List Byte)) = true := by
        rw [hamp]
        rfl
      refine (parses_peek hi htokens (by decide) hseen).bind fun j hj htokens => ?_
      refine (parses_gettoken hj htokens).bind fun k hk htokens => ?_
      refine ih hk htokens ?_
      rw [List.length_cons] at hturns
      omega

theorem headTok_words {ts more : List Token} {args : List Arg}
    {redirs later : List Redir} (hredirs : Redirs ts redirs)
    (hargs : Args more args later) (hend : headTok rest ∈ execEnd) :
    (headTok (ts ++ more ++ rest)).first.any (· ∈ ([40] : List Byte)) = false := by
  rw [List.append_assoc]
  rcases hredirs.head (more ++ rest) with hhead | rfl
  · exact headTok_first hhead (by decide)
  · rw [List.nil_append]
    rcases hargs.head rest with hhead | rfl
    · rw [hhead]
      rfl
    · exact headTok_first hend (by decide)

theorem Backs.headTok_mem {ts : List Token} {cmd all : Cmd} (h : Backs ts cmd all)
    (hend : headTok rest ∈ pipeEnd) : headTok (ts ++ rest) ∈ pipeEnd := by
  cases h with
  | nil => exact hend
  | @cons amp ts cmd all hamp =>
      change amp.tok ∈ pipeEnd
      rw [hamp]
      decide

mutual

theorem Line.parses {ts : List Token} {cmd : Cmd} {i fuel : Nat} {rest : List Token} :
    Line ts cmd → i ≤ s.length → tokensAt s i = ts ++ rest →
      headTok rest ∈ lineEnd → 4 * ts.length + 4 ≤ fuel →
        Parses s (parseline s fuel) i cmd rest
  | @Line.last ts backs cmd all hpipe hbacks => by
      intro hi htokens hend hfuel
      obtain ⟨fuel, rfl⟩ := Nat.exists_eq_succ_of_ne_zero (by omega : fuel ≠ 0)
      rw [List.length_append] at hfuel
      rw [List.append_assoc] at htokens
      have hpipeEnd : headTok rest ∈ pipeEnd :=
        List.mem_cons_of_mem _ (List.mem_cons_of_mem _ hend)
      have hfirst : Parses s (parsepipe s fuel) i cmd _ :=
        hpipe.parses hi htokens (hbacks.headTok_mem hpipeEnd) (by omega)
      refine hfirst.bind fun j hj htokens => ?_
      refine (hbacks.parses hj htokens ?_ (enough_turns hj htokens)).bind fun k hk htokens => ?_
      · intro hamp
        rw [hamp] at hend
        revert hend
        decide
      refine (parses_peek hk htokens (by decide)
        (headTok_first hend (by decide))).bind fun l hl htokens => ?_
      exact .pure hl htokens
  | @Line.semi ts backs more cmd all last semi hpipe hbacks hsemi hlast => by
      intro hi htokens hend hfuel
      obtain ⟨fuel, rfl⟩ := Nat.exists_eq_succ_of_ne_zero (by omega : fuel ≠ 0)
      simp only [List.length_append, List.length_cons] at hfuel
      rw [List.append_assoc, List.append_assoc] at htokens
      have hpipeEnd : headTok (semi :: more ++ rest) ∈ pipeEnd := by
        change semi.tok ∈ pipeEnd
        rw [hsemi]
        decide
      have hfirst : Parses s (parsepipe s fuel) i cmd _ :=
        hpipe.parses hi htokens (hbacks.headTok_mem hpipeEnd) (by omega)
      refine hfirst.bind fun j hj htokens => ?_
      refine (hbacks.parses hj htokens ?_ (enough_turns hj htokens)).bind fun k hk htokens => ?_
      · change semi.tok ≠ .amp
        rw [hsemi]
        decide
      have hseen : (headTok (semi :: more ++ rest)).first.any
          (· ∈ ([59] : List Byte)) = true := by
        change semi.tok.first.any _ = true
        rw [hsemi]
        rfl
      refine (parses_peek hk htokens (by decide) hseen).bind fun l hl htokens => ?_
      refine (parses_gettoken hl htokens).bind fun m hm htokens => ?_
      refine (hlast.parses hm htokens hend (by omega)).bind fun n hn htokens => ?_
      exact .pure hn htokens

theorem Pipe.parses {ts : List Token} {cmd : Cmd} {i fuel : Nat} {rest : List Token} :
    Pipe ts cmd → i ≤ s.length → tokensAt s i = ts ++ rest →
      headTok rest ∈ pipeEnd → 4 * ts.length + 3 ≤ fuel →
        Parses s (parsepipe s fuel) i cmd rest
  | @Pipe.last ts cmd hexec => by
      intro hi htokens hend hfuel
      obtain ⟨fuel, rfl⟩ := Nat.exists_eq_succ_of_ne_zero (by omega : fuel ≠ 0)
      have hfirst : Parses s (parseexec s fuel) i cmd rest :=
        hexec.parses hi htokens (List.mem_cons_of_mem _ hend) (by omega)
      refine hfirst.bind fun j hj htokens => ?_
      refine (parses_peek hj htokens (by decide)
        (headTok_first hend (by decide))).bind fun k hk htokens => ?_
      exact .pure hk htokens
  | @Pipe.bar ts more cmd last bar hexec hbar hlast => by
      intro hi htokens hend hfuel
      obtain ⟨fuel, rfl⟩ := Nat.exists_eq_succ_of_ne_zero (by omega : fuel ≠ 0)
      simp only [List.length_append, List.length_cons] at hfuel
      rw [List.append_assoc] at htokens
      have hexecEnd : headTok (bar :: more ++ rest) ∈ execEnd := by
        change bar.tok ∈ execEnd
        rw [hbar]
        decide
      have hfirst : Parses s (parseexec s fuel) i cmd _ :=
        hexec.parses hi htokens hexecEnd (by omega)
      refine hfirst.bind fun j hj htokens => ?_
      have hseen : (headTok (bar :: more ++ rest)).first.any
          (· ∈ ([124] : List Byte)) = true := by
        change bar.tok.first.any _ = true
        rw [hbar]
        rfl
      refine (parses_peek hj htokens (by decide) hseen).bind fun k hk htokens => ?_
      refine (parses_gettoken hk htokens).bind fun l hl htokens => ?_
      refine (hlast.parses hl htokens hend (by omega)).bind fun m hm htokens => ?_
      exact .pure hm htokens

theorem Exec.parses {ts : List Token} {cmd : Cmd} {i fuel : Nat} {rest : List Token} :
    Exec ts cmd → i ≤ s.length → tokensAt s i = ts ++ rest →
      headTok rest ∈ execEnd → 4 * ts.length + 2 ≤ fuel →
        Parses s (parseexec s fuel) i cmd rest
  | @Exec.block ts more cmd redirs lparen rparen hlparen hline hrparen hredirs => by
      intro hi htokens hend hfuel
      simp only [List.length_append, List.length_cons] at hfuel
      obtain ⟨fuel, rfl⟩ : ∃ n, fuel = n + 2 := ⟨fuel - 2, by omega⟩
      rw [List.cons_append, List.append_assoc] at htokens
      have hopen : lparen.tok.first.any (· ∈ ([40] : List Byte)) = true := by
        rw [hlparen]
        rfl
      refine (parses_peek hi htokens (by decide) hopen).bind fun j hj htokens => ?_
      refine (parses_peek hj htokens (by decide) hopen).bind fun k hk htokens => ?_
      refine (parses_gettoken hk htokens).bind fun l hl htokens => ?_
      have hlineEnd : headTok (rparen :: more ++ rest) ∈ lineEnd := by
        change rparen.tok ∈ lineEnd
        rw [hrparen]
        decide
      refine (hline.parses hl htokens hlineEnd (by omega)).bind fun m hm htokens => ?_
      have hclose : (headTok (rparen :: more ++ rest)).first.any
          (· ∈ ([41] : List Byte)) = true := by
        change rparen.tok.first.any _ = true
        rw [hrparen]
        rfl
      refine (parses_peek hm htokens (by decide) hclose).bind fun n hn htokens => ?_
      refine (parses_gettoken hn htokens).bind fun p hp htokens => ?_
      refine (hredirs.parses hp htokens (headTok_first hend (by decide))
        (enough_turns hp htokens)).bind fun q hq htokens => ?_
      rw [List.nil_append]
      exact .pure hq htokens
  | @Exec.words ts more args redirs later hredirs hargs hcount => by
      intro hi htokens hend hfuel
      obtain ⟨fuel, rfl⟩ := Nat.exists_eq_succ_of_ne_zero (by omega : fuel ≠ 0)
      refine (parses_peek hi htokens (by decide)
        (headTok_words hredirs hargs hend)).bind fun j hj htokens => ?_
      rw [List.append_assoc] at htokens
      have hstop : (headTok (more ++ rest)).first.any (· ∈ ([60, 62] : List Byte)) =
          false := by
        rcases hargs.head rest with hhead | hnil
        · rw [hhead]
          rfl
        · rw [hnil, List.nil_append]
          exact headTok_first hend (by decide)
      refine (hredirs.parses hj htokens hstop (enough_turns hj htokens)).bind fun k hk htokens => ?_
      have hlast : Parses s (parseargs s (s.length + 1) (argvOf []) ([] : List Arg).length
          redirs) k _ rest :=
        hargs.parses hk htokens hend (enough_turns hk htokens) hcount
      exact hlast

end

end Complete

section Parsecmd

variable {s : CString}

theorem tokensAt_eq_nil {i : Nat} (hi : i ≤ s.length) :
    tokensAt s i = [] ↔ s.skip isSpace i = s.length := by
  have hle := CString.skip_le (s := s) isSpace hi
  have heof : (nextToken s i).1.tok = .eof ↔ s.length ≤ s.skip isSpace i :=
    scan_eof (s.skip isSpace i)
  rw [tokensAt_eq hi]
  split
  next h => exact ⟨fun _ => le_antisymm hle (heof.mp h), fun _ => rfl⟩
  next h =>
    constructor
    · intro hnil
      cases hnil
    · intro hskip
      exact absurd (heof.mpr hskip.ge) h

theorem fuel_tokens (s : CString) : 4 * (tokens s).length + 4 ≤ 4 * s.length + 4 := by
  have hlength := length_tokensAt (s := s) (Nat.zero_le _)
  change 4 * (tokensAt s 0).length + 4 ≤ 4 * s.length + 4
  omega

theorem parsecmd_run {cmd : Cmd} {i : Nat}
    (hrun : parseline s (4 * s.length + 4) 0 = .ok (cmd, i)) :
    parsecmd s = if s.skip isSpace i = s.length then
      .ok (cmd, nulterminate cmd (s.bytes ++ [0])) else .error .leftovers := by
  unfold parsecmd
  rw [hrun]
  change (if s.skip isSpace i = s.length then _ else _) = _
  split <;> rfl

theorem parseline_all {cmd : Cmd} (hline : Line (tokens s) cmd) :
    ∃ i, parseline s (4 * s.length + 4) 0 = .ok (cmd, i) ∧ s.skip isSpace i = s.length := by
  have hall : tokensAt s 0 = tokens s ++ [] := (List.append_nil _).symm
  obtain ⟨i, hrun, hi, hrest⟩ := hline.parses (Nat.zero_le _) hall (by decide) (fuel_tokens s)
  exact ⟨i, hrun, (tokensAt_eq_nil hi).mp hrest⟩

theorem parsecmd_of_line {cmd : Cmd} (hline : Line (tokens s) cmd) :
    parsecmd s = .ok (cmd, nulterminate cmd (s.bytes ++ [0])) := by
  obtain ⟨i, hrun, hskip⟩ := parseline_all hline
  rw [parsecmd_run hrun, if_pos hskip]

theorem parsecmd_ok {cmd : Cmd} {line : List Byte} (hok : parsecmd s = .ok (cmd, line)) :
    Line (tokens s) cmd ∧ line = nulterminate cmd (s.bytes ++ [0]) := by
  have hsound := (meets_parse s (4 * s.length + 4)).1 0 (Nat.zero_le _) (fuel_tokens s)
  cases hrun : parseline s (4 * s.length + 4) 0 with
  | error stop =>
      unfold parsecmd at hok
      rw [hrun] at hok
      cases hok
  | ok result =>
      obtain ⟨cmd', i⟩ := result
      obtain ⟨hi, ts, hts, hline⟩ := hsound.ok hrun
      rw [parsecmd_run hrun] at hok
      split at hok
      next hskip =>
        cases hok
        rw [(tokensAt_eq_nil hi).mpr hskip, List.append_nil] at hts
        have htokens : tokens s = ts := hts
        rw [htokens]
        exact ⟨hline, rfl⟩
      next => cases hok

/-- `parsecmd` returns the tree of the line's tokens when the grammar derives one, there
is only one, and otherwise it panics: the recursion ends, and no argument is stored past
the end of `argv`. What `parseline` leaves of an accepted line is blank. -/
theorem parsecmd_accepts (s : CString) :
    (∀ cmd line, parsecmd s = .ok (cmd, line) ↔
      Line (tokens s) cmd ∧ line = nulterminate cmd (s.bytes ++ [0])) ∧
    (∀ cmd cmd', Line (tokens s) cmd → Line (tokens s) cmd' → cmd = cmd') ∧
    (∀ cmd, Line (tokens s) cmd → ∃ i, parseline s (4 * s.length + 4) 0 = .ok (cmd, i) ∧
      s.skip isSpace i = s.length) ∧
    parsecmd s ≠ .error .outOfFuel ∧ parsecmd s ≠ .error .outOfBounds := by
  have hsound := (meets_parse s (4 * s.length + 4)).1 0 (Nat.zero_le _) (fuel_tokens s)
  refine ⟨?_, ?_, fun _ => parseline_all, ?_⟩
  · intro cmd line
    constructor
    · exact parsecmd_ok
    · rintro ⟨hline, rfl⟩
      exact parsecmd_of_line hline
  · intro cmd cmd' hline hline'
    obtain ⟨i, hrun, -⟩ := parseline_all hline
    obtain ⟨j, hrun', -⟩ := parseline_all hline'
    rw [hrun] at hrun'
    cases hrun'
    rfl
  · have hstops : ∀ stop, parsecmd s = .error stop → Panics stop := by
      intro stop herror
      cases hrun : parseline s (4 * s.length + 4) 0 with
      | error stop' =>
          unfold parsecmd at herror
          rw [hrun] at herror
          cases herror
          exact hsound.error hrun
      | ok result =>
          rw [parsecmd_run hrun] at herror
          split at herror
          · cases herror
          · cases herror
            exact ⟨by decide, by decide⟩
    exact ⟨fun h => (hstops _ h).2 rfl, fun h => (hstops _ h).1 rfl⟩

end Parsecmd

end KernelThreads.Shell
