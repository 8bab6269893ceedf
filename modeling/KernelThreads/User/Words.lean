import KernelThreads.User.Grammar

namespace KernelThreads.Shell

open Lib

/-! The strings of a parsed line.  They all lie in the line, and `nulterminate` writes
their NULs over the characters after the words. -/

def Cmd.pointers : Cmd → List Arg
  | .exec argv => (List.finRange MAXARGS).filterMap argv
  | .redir cmd target => target.file :: cmd.pointers
  | .pipe left right => left.pointers ++ right.pointers
  | .list left right => left.pointers ++ right.pointers
  | .back cmd => cmd.pointers

def stringAt (buf : List Byte) (q : Nat) : List Byte := (buf.drop q).takeWhile (· ≠ 0)

def CString.text (s : CString) (arg : Arg) : List Byte :=
  (s.bytes.drop arg.q).take (arg.eq - arg.q)

/-- The arguments of a command are followed by null pointers. -/
def Cmd.Packed : Cmd → Prop
  | .exec argv => ∃ args : List Arg, argv = argvOf args ∧ args.length ≤ MAXARGS
  | .redir cmd _ => cmd.Packed
  | .pipe left right => left.Packed ∧ right.Packed
  | .list left right => left.Packed ∧ right.Packed
  | .back cmd => cmd.Packed

section Write

variable {buf : List Byte} {k : Nat}

theorem endArgs_other {opts : List (Option Arg)}
    (h : ∀ arg ∈ opts.filterMap id, arg.eq ≠ k) : (endArgs opts buf)[k]? = buf[k]? := by
  induction opts generalizing buf with
  | nil => rfl
  | cons opt opts ih =>
      cases opt with
      | none => rfl
      | some arg =>
          rw [List.filterMap_cons] at h
          rw [endArgs, ih fun other hother => h other (List.mem_cons_of_mem arg hother),
            List.getElem?_set_ne (h arg (List.mem_cons_self ..))]

theorem getElem?_set_zero {eq : Nat} (h : buf[k]? = some 0) :
    (buf.set eq 0)[k]? = some 0 := by
  by_cases heq : eq = k
  · subst heq
    rw [List.getElem?_set_self (List.getElem?_eq_some_iff.mp h).1]
  · rw [List.getElem?_set_ne heq, h]

theorem endArgs_zero {opts : List (Option Arg)} (h : buf[k]? = some 0) :
    (endArgs opts buf)[k]? = some 0 := by
  induction opts generalizing buf with
  | nil => exact h
  | cons opt opts ih =>
      cases opt with
      | none => exact h
      | some arg => exact ih (getElem?_set_zero h)

theorem endArgs_ends {args : List Arg} {rest : List (Option Arg)} {arg : Arg}
    (harg : arg ∈ args) (hlt : arg.eq < buf.length) :
    (endArgs (args.map some ++ rest) buf)[arg.eq]? = some 0 := by
  induction args generalizing buf with
  | nil => cases harg
  | cons first args ih =>
      rw [List.map_cons, List.cons_append, endArgs]
      cases harg with
      | head => exact endArgs_zero (List.getElem?_set_self hlt)
      | tail _ hin => exact ih hin (by rwa [List.length_set])

theorem map_argvOf {args : List Arg} (h : args.length ≤ MAXARGS) :
    (List.finRange MAXARGS).map (argvOf args) =
      args.map some ++ List.replicate (MAXARGS - args.length) none := by
  apply List.ext_getElem
  · simp [h]
  · intro i hleft hright
    simp only [List.getElem_map, List.getElem_finRange, argvOf, List.getElem_append,
      List.length_map]
    split
    · simp
    · rw [List.getElem_replicate]
      simp only [Fin.val_cast, List.getElem?_eq_none_iff]
      omega

theorem pointers_argvOf {args : List Arg} (h : args.length ≤ MAXARGS) :
    (Cmd.exec (argvOf args)).pointers = args := by
  have hmap : (List.finRange MAXARGS).filterMap (argvOf args) =
      ((List.finRange MAXARGS).map (argvOf args)).filterMap id := by
    rw [List.filterMap_map]
    rfl
  rw [Cmd.pointers, hmap, map_argvOf h, List.filterMap_append, List.filterMap_map]
  simp

theorem nulterminate_other {cmd : Cmd} (h : ∀ arg ∈ cmd.pointers, arg.eq ≠ k) :
    (nulterminate cmd buf)[k]? = buf[k]? := by
  induction cmd generalizing buf with
  | exec argv =>
      refine endArgs_other fun arg harg => h arg ?_
      rw [List.filterMap_map] at harg
      exact harg
  | redir cmd redir ih =>
      rw [nulterminate, List.getElem?_set_ne (h redir.file (List.mem_cons_self ..)),
        ih fun arg harg => h arg (List.mem_cons_of_mem _ harg)]
  | pipe left right ihleft ihright | list left right ihleft ihright =>
      rw [nulterminate, ihright fun arg harg => h arg (List.mem_append_right _ harg),
        ihleft fun arg harg => h arg (List.mem_append_left _ harg)]
  | back cmd ih => exact ih h

theorem nulterminate_zero {cmd : Cmd} (h : buf[k]? = some 0) :
    (nulterminate cmd buf)[k]? = some 0 := by
  induction cmd generalizing buf with
  | exec argv => exact endArgs_zero h
  | redir cmd redir ih => exact getElem?_set_zero (ih h)
  | pipe left right ihleft ihright | list left right ihleft ihright =>
      exact ihright (ihleft h)
  | back cmd ih => exact ih h

theorem length_endArgs (opts : List (Option Arg)) (buf : List Byte) :
    (endArgs opts buf).length = buf.length := by
  induction opts generalizing buf with
  | nil => rfl
  | cons opt opts ih =>
      cases opt with
      | none => rfl
      | some arg => rw [endArgs, ih, List.length_set]

theorem length_nulterminate (cmd : Cmd) (buf : List Byte) :
    (nulterminate cmd buf).length = buf.length := by
  induction cmd generalizing buf with
  | exec argv => exact length_endArgs _ _
  | redir cmd redir ih => rw [nulterminate, List.length_set, ih]
  | pipe left right ihleft ihright | list left right ihleft ihright =>
      rw [nulterminate, ihright, ihleft]
  | back cmd ih => exact ih buf

theorem nulterminate_ends {cmd : Cmd} {arg : Arg} (hpacked : cmd.Packed)
    (harg : arg ∈ cmd.pointers) (hlt : arg.eq < buf.length) :
    (nulterminate cmd buf)[arg.eq]? = some 0 := by
  induction cmd generalizing buf with
  | exec argv =>
      obtain ⟨args, rfl, hlength⟩ := hpacked
      rw [pointers_argvOf hlength] at harg
      rw [nulterminate, map_argvOf hlength]
      exact endArgs_ends harg hlt
  | redir cmd redir ih =>
      cases harg with
      | head =>
          exact List.getElem?_set_self (by rwa [length_nulterminate])
      | tail _ hin => exact getElem?_set_zero (ih hpacked hin hlt)
  | pipe left right ihleft ihright | list left right ihleft ihright =>
      rw [nulterminate]
      rcases List.mem_append.mp harg with hin | hin
      · exact nulterminate_zero (ihleft hpacked.1 hin hlt)
      · exact ihright hpacked.2 hin (by rwa [length_nulterminate])
  | back cmd ih => exact ih hpacked harg hlt

end Write

/-- A word: it ends at the first character that is not in a word. -/
structure IsWord (s : CString) (arg : Arg) : Prop where
  order : arg.q ≤ arg.eq
  bound : arg.eq ≤ s.length
  word : ∀ k, arg.q ≤ k → k < arg.eq → inWord (s.char k) = true
  stop : arg.eq < s.length → inWord (s.char arg.eq) = false

variable {s : CString} {i : Nat}

theorem nextToken_isWord (hi : i ≤ s.length) (hword : (nextToken s i).1.tok = .word) :
    IsWord s (nextToken s i).1.arg := by
  have hq : s.skip isSpace i ≤ s.length := CString.skip_le isSpace hi
  have htok : (scan s (s.skip isSpace i)).1 = .word := hword
  have heq : scan s (s.skip isSpace i) =
      (.word, s.skip inWord (s.skip isSpace i)) := by
    rcases scan_cases (s := s) (s.skip isSpace i) with ⟨-, heof⟩ | ⟨-, hfirst, -⟩ | ⟨-, -, hscan⟩
    · rw [heof] at htok
      cases htok
    · rw [htok] at hfirst
      cases hfirst
    · exact hscan
  have harg : (nextToken s i).1.arg = ⟨s.skip isSpace i, s.skip inWord (s.skip isSpace i)⟩ := by
    unfold nextToken
    simp only [heq]
  obtain ⟨hin, hout⟩ := CString.skip_spec inWord hq
  rw [harg]
  exact ⟨CString.le_skip inWord, CString.skip_le inWord hq, hin, hout⟩

theorem tokensFrom_isWord {turns : Nat} (hi : i ≤ s.length) :
    ∀ token ∈ tokensFrom s turns i, token.tok = .word → IsWord s token.arg := by
  induction turns generalizing i with
  | zero => exact fun _ hmem => absurd hmem (List.not_mem_nil)
  | succ turns ih =>
      intro token hmem hword
      rw [tokensFrom] at hmem
      split at hmem
      · cases hmem
      · cases hmem with
        | head => exact nextToken_isWord hi hword
        | tail _ hin => exact ih (nextToken_next hi).1 token hin hword

def FromWords (ts : List Token) (args : List Arg) : Prop :=
  ∀ arg ∈ args, ∃ token ∈ ts, token.tok = .word ∧ token.arg = arg

theorem FromWords.mono {ts more : List Token} {args : List Arg} (h : FromWords ts args)
    (hsub : ∀ token ∈ ts, token ∈ more) : FromWords more args := by
  intro arg harg
  obtain ⟨token, hmem, hword⟩ := h arg harg
  exact ⟨token, hsub token hmem, hword⟩

theorem FromWords.append {ts more : List Token} {args later : List Arg}
    (h : FromWords ts args) (hlater : FromWords more later) :
    FromWords (ts ++ more) (args ++ later) := by
  intro arg harg
  rcases List.mem_append.mp harg with hin | hin
  · exact h.mono (fun token => List.mem_append_left more) arg hin
  · exact hlater.mono (fun token => List.mem_append_right ts) arg hin

theorem Tok.redir_file {tok : Tok} {file : Arg} {redir : Redir}
    (h : tok.redir file = some redir) : redir.file = file := by
  cases tok <;> cases h <;> rfl

theorem Redirs.fromWords {ts : List Token} {redirs : List Redir} (h : Redirs ts redirs) :
    FromWords ts (redirs.map Redir.file) := by
  induction h with
  | nil => exact fun _ harg => absurd harg List.not_mem_nil
  | @cons op file redir ts redirs hop hword _ ih =>
      intro arg harg
      rw [List.map_cons, Tok.redir_file hop] at harg
      cases harg with
      | head => exact ⟨file, by simp, hword, rfl⟩
      | tail _ hin => exact ih.mono (fun token hmem => by simp [hmem]) arg hin

theorem Args.fromWords {ts : List Token} {args : List Arg} {redirs : List Redir}
    (h : Args ts args redirs) :
    FromWords ts args ∧ FromWords ts (redirs.map Redir.file) := by
  induction h with
  | nil => exact ⟨fun _ harg => absurd harg List.not_mem_nil,
      fun _ harg => absurd harg List.not_mem_nil⟩
  | @cons word ts more args redirs later hword hredirs _ ih =>
      constructor
      · intro arg harg
        cases harg with
        | head => exact ⟨word, by simp, hword, rfl⟩
        | tail _ hin => exact ih.1.mono (fun token hmem => by simp [hmem]) arg hin
      · rw [List.map_append]
        exact (hredirs.fromWords.mono fun token hmem => List.mem_cons_of_mem word hmem).append
          ih.2

/-- The pointers of a tree lead to words, and its arguments are packed. -/
structure Named (ts : List Token) (cmd : Cmd) : Prop where
  words : FromWords ts cmd.pointers
  packed : cmd.Packed

theorem Named.mono {ts more : List Token} {cmd : Cmd} (h : Named ts cmd)
    (hsub : ∀ token ∈ ts, token ∈ more) : Named more cmd :=
  ⟨h.words.mono hsub, h.packed⟩

theorem Named.wrap {ts : List Token} {cmd : Cmd} {redirs : List Redir}
    (h : Named ts cmd) (hredirs : FromWords ts (redirs.map Redir.file)) :
    Named ts (wrap cmd redirs) := by
  unfold Shell.wrap
  induction redirs generalizing cmd with
  | nil => exact h
  | cons redir redirs ih =>
      rw [List.foldl_cons]
      refine ih ⟨?_, h.packed⟩ fun arg harg => hredirs arg (List.mem_cons_of_mem _ harg)
      intro arg harg
      cases harg with
      | head => exact hredirs _ (List.mem_cons_self ..)
      | tail _ hin => exact h.words arg hin

theorem Backs.named {ts all : List Token} {cmd last : Cmd} (h : Backs ts cmd last)
    (hcmd : Named all cmd) : Named all last := by
  induction h with
  | nil => exact hcmd
  | cons _ _ ih => exact ih ⟨hcmd.words, hcmd.packed⟩

mutual

theorem Line.named {ts : List Token} {cmd : Cmd} : Line ts cmd → Named ts cmd
  | .last hpipe hbacks =>
      hbacks.named (hpipe.named.mono fun _ => List.mem_append_left _)
  | .semi hpipe hbacks _ hmore => by
      have hfirst := hbacks.named (hpipe.named)
      have hrest := hmore.named
      refine ⟨?_, hfirst.packed, hrest.packed⟩
      refine hfirst.words.append (hrest.words.mono fun token hmem => ?_)
      exact List.mem_append_right _ (List.mem_cons_of_mem _ hmem)

theorem Pipe.named {ts : List Token} {cmd : Cmd} : Pipe ts cmd → Named ts cmd
  | .last hexec => hexec.named
  | .bar hexec _ hmore => by
      have hfirst := hexec.named
      have hrest := hmore.named
      refine ⟨?_, hfirst.packed, hrest.packed⟩
      exact hfirst.words.append (hrest.words.mono fun token hmem => List.mem_cons_of_mem _ hmem)

theorem Exec.named {ts : List Token} {cmd : Cmd} : Exec ts cmd → Named ts cmd
  | @Exec.block ts more cmd redirs lparen rparen _ hline _ hredirs => by
      have hcmd := hline.named
      have hfiles := hredirs.fromWords
      refine (hcmd.mono fun token hmem => ?_).wrap (hfiles.mono fun token hmem => ?_)
      · simp [hmem]
      · simp [hmem]
  | @Exec.words ts more args redirs later hredirs hargs hcount => by
      have hlength : args.length ≤ MAXARGS := hcount.trans (Nat.sub_le MAXARGS 1)
      obtain ⟨hwords, hlater⟩ := hargs.fromWords
      have hexec : Named (ts ++ more) (.exec (argvOf args)) := by
        refine ⟨?_, args, rfl, hlength⟩
        rw [pointers_argvOf hlength]
        exact hwords.mono fun token => List.mem_append_right ts
      apply hexec.wrap
      rw [List.map_append]
      exact hredirs.fromWords.append hlater

end

theorem stringAt_of {buf : List Byte} {text rest : List Byte} {q : Nat}
    (hnonzero : ∀ b ∈ text, b ≠ 0) (hdrop : buf.drop q = text ++ 0 :: rest) :
    stringAt buf q = text := by
  unfold stringAt
  rw [hdrop, List.takeWhile_append_of_pos (fun b hb => by simpa using hnonzero b hb)]
  simp

theorem nulterminate_word {cmd : Cmd} {arg : Arg} (hnamed : Named (tokens s) cmd)
    (harg : arg ∈ cmd.pointers) :
    (nulterminate cmd (s.bytes ++ [0]))[arg.eq]? = some 0 ∧
      stringAt (nulterminate cmd (s.bytes ++ [0])) arg.q = s.text arg := by
  have hall : ∀ other ∈ cmd.pointers, IsWord s other := by
    intro other hother
    obtain ⟨token, hmem, hword, rfl⟩ := hnamed.words other hother
    exact tokensFrom_isWord (Nat.zero_le _) token hmem hword
  have hself := hall arg harg
  have hlength : (s.bytes ++ [0]).length = s.length + 1 := List.length_append
  have hzero : (nulterminate cmd (s.bytes ++ [0]))[arg.eq]? = some 0 :=
    nulterminate_ends hnamed.packed harg (by have := hself.bound; omega)
  refine ⟨hzero, ?_⟩
  -- A NUL is not written into a word: a word ends at another kind of character.
  have hsame : ∀ k, arg.q ≤ k → k < arg.eq →
      (nulterminate cmd (s.bytes ++ [0]))[k]? = s.bytes[k]? := by
    intro k hlow hhigh
    have hk : k < s.length := hhigh.trans_le hself.bound
    rw [nulterminate_other, List.getElem?_append_left hk]
    rintro other hother rfl
    have hout := (hall other hother).stop hk
    rw [hself.word other.eq hlow hhigh] at hout
    cases hout
  have htext : ∀ b ∈ s.text arg, b ≠ 0 := fun b hb =>
    s.nonzero b (List.mem_of_mem_drop (List.mem_of_mem_take hb))
  obtain ⟨hlt, hget⟩ := List.getElem?_eq_some_iff.mp hzero
  suffices hdrop : (nulterminate cmd (s.bytes ++ [0])).drop arg.q =
      s.text arg ++ 0 :: (nulterminate cmd (s.bytes ++ [0])).drop (arg.eq + 1) from
    stringAt_of htext hdrop
  apply List.ext_getElem?
  intro k
  have htextLength : (s.text arg).length = arg.eq - arg.q := by
    have hbound : arg.eq ≤ s.bytes.length := hself.bound
    rw [CString.text, List.length_take, List.length_drop]
    omega
  have horder := hself.order
  rw [List.getElem?_drop]
  by_cases hin : k < arg.eq - arg.q
  · rw [List.getElem?_append_left (by omega), hsame (arg.q + k) (by omega) (by omega),
      CString.text, List.getElem?_take_of_lt hin, List.getElem?_drop]
  · rw [List.getElem?_append_right (by omega), htextLength]
    by_cases hend : k = arg.eq - arg.q
    · rw [hend, Nat.sub_self, List.getElem?_cons_zero, Nat.add_sub_cancel' horder, hzero]
    · obtain ⟨j, hj⟩ : ∃ j, k - (arg.eq - arg.q) = j + 1 := ⟨k - (arg.eq - arg.q) - 1, by omega⟩
      rw [hj, List.getElem?_cons_succ, List.getElem?_drop]
      congr 1
      omega

/-- In the line that `parsecmd` leaves, each string of the tree is the text of the word
that it was parsed from, with a NUL after it. -/
theorem parsecmd_strings (s : CString) {cmd : Cmd} {buf : List Byte}
    (hok : parsecmd s = .ok (cmd, buf)) :
    ∀ arg ∈ cmd.pointers,
      (∃ token ∈ tokens s, token.tok = .word ∧ token.arg = arg) ∧
        buf[arg.eq]? = some 0 ∧ stringAt buf arg.q = s.text arg := by
  obtain ⟨hline, rfl⟩ := parsecmd_ok hok
  intro arg harg
  exact ⟨hline.named.words arg harg, nulterminate_word hline.named harg⟩

def redirLine : CString := ⟨[97, 62, 98], by decide⟩

def redirCmd : Cmd := .redir (.exec (argvOf [⟨0, 1⟩])) ⟨⟨2, 3⟩, O_WRONLY ||| O_CREATE, 1⟩

theorem parsecmd_redirLine : parsecmd redirLine = .ok (redirCmd, [97, 0, 98, 0]) := by
  have htokens : tokens redirLine =
      [] ++ (⟨.word, 0, 1⟩ :: [⟨.gt, 1, 2⟩, ⟨.word, 2, 3⟩] ++ []) ++ [] := by decide
  have hargs : Args (⟨.word, 0, 1⟩ :: [⟨.gt, 1, 2⟩, ⟨.word, 2, 3⟩] ++ []) [⟨0, 1⟩]
      ([⟨⟨2, 3⟩, O_WRONLY ||| O_CREATE, 1⟩] ++ []) := .cons rfl (.cons rfl rfl .nil) .nil
  refine parsecmd_of_line ?_
  rw [htokens]
  exact .last (.last (.words .nil hargs (by decide))) .nil

theorem parsecmd_strings_redirLine :
    stringAt [97, 0, 98, 0] 0 = redirLine.text ⟨0, 1⟩ ∧
      stringAt [97, 0, 98, 0] 2 = redirLine.text ⟨2, 3⟩ :=
  ⟨(parsecmd_strings redirLine parsecmd_redirLine ⟨0, 1⟩ (by decide)).2.2,
    (parsecmd_strings redirLine parsecmd_redirLine ⟨2, 3⟩ (by decide)).2.2⟩

end KernelThreads.Shell
